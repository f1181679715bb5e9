import OSCompas.Lib.Chain
import OSCompas.Lib.Span
import OSCompas.Memory.Model
import Mathlib.Data.Nat.ModEq

/-!
# The free list as a list of blocks

What the loops of `memory.c` do to the bytes, said on lists of blocks.

* `Block`, `FreeSeg`, `FreeList` — the memory holds these blocks, in this order;
* `Laid` — the blocks lie inside the address space and are pairwise apart;
* `merge` — the list `coalesce_blocks` leaves.

Principal results: `coalesceBlocks_spec`, `findBestFit_spec`, `removeFromFreeList_spec`,
`splitBlock_spec` and, for each loop, that it ends on a list of blocks.
-/

set_option autoImplicit false

namespace OSCompas.Memory

open ByteMemory Chain

variable {m m' : Mem} {a k n v p q r size fuel : Nat}

/-! ## Fields -/

theorem next_lt (m : Mem) (a : Nat) : next m a < 2 ^ 64 := load_lt _ _ _ 8

theorem blockSize_lt (m : Mem) (a : Nat) : blockSize m a < 2 ^ 64 := load_lt _ _ _ 8

theorem alignUp_mod (x : Nat) : alignUp x % 8 = 0 := Nat.mul_mod_left _ _

theorem alignUp_lt (x : Nat) : alignUp x + 8 ≤ 2 ^ 64 := by unfold alignUp; omega

theorem alignDown_le (x : Nat) : alignDown x ≤ x := by unfold alignDown; omega

theorem sub64_of_le {b : Nat} (h : b ≤ a) (ha : a < 2 ^ 64) : sub64 a b = a - b := by
  unfold sub64
  rw [show a + (2 ^ 64 - b) = (a - b) + 2 ^ 64 by omega, Nat.add_mod_right,
    Nat.mod_eq_of_lt (by omega)]

theorem sub64_sub64 {b c : Nat} (h : b + c ≤ a) (ha : a < 2 ^ 64) :
    sub64 (sub64 a b) c = a - b - c := by
  have h1 : sub64 a b = a - b := sub64_of_le (by omega) ha
  rw [h1, sub64_of_le (by omega) (by omega)]

theorem sub64_modEq {b : Nat} (h : b ≤ 2 ^ 64) : sub64 a b + b ≡ a [MOD 2 ^ 64] := by
  unfold sub64
  have h1 : (a + (2 ^ 64 - b)) % 2 ^ 64 + b ≡ a + (2 ^ 64 - b) + b [MOD 2 ^ 64] :=
    (Nat.mod_modEq _ _).add_right b
  rw [show a + (2 ^ 64 - b) + b = a + 2 ^ 64 by omega] at h1
  exact h1.trans (Nat.add_modEq_right)

/-- Both fields of a free block are read from its first 16 bytes. -/
theorem next_congr (h : AgreeOn m m' a 16) (ha : a + 16 ≤ 2 ^ 64) : next m' a = next m a :=
  load_congr (h.mono (Nat.le_refl _) (by omega)) (by omega)

theorem blockSize_congr (h : AgreeOn m m' a 16) (ha : a + 16 ≤ 2 ^ 64) :
    blockSize m' a = blockSize m a := by
  have h8 : (a + 8) % 2 ^ 64 = a + 8 := Nat.mod_eq_of_lt (by omega)
  unfold blockSize
  rw [h8]
  exact load_congr (h.mono (by omega) (by omega)) (by omega)

section Fields

variable {b : Nat} (ha : a + 24 ≤ 2 ^ 64)
include ha

theorem next_setNext (hv : v < 2 ^ 64) : next (setNext m a v) a = v :=
  load_store_same_of_lt (by omega) (by omega)

theorem blockSize_setNext : blockSize (setNext m a v) a = blockSize m a := by
  have h8 : (a + 8) % 2 ^ 64 = a + 8 := Nat.mod_eq_of_lt (by omega)
  unfold blockSize setNext
  rw [h8]
  exact load_store_disjoint (by omega) (by omega) (by omega)

theorem blockSize_setBlockSize (hv : v < 2 ^ 64) : blockSize (setBlockSize m a v) a = v := by
  have h8 : (a + 8) % 2 ^ 64 = a + 8 := Nat.mod_eq_of_lt (by omega)
  unfold blockSize setBlockSize
  rw [h8]
  exact load_store_same_of_lt (by omega) (by omega)

theorem agreeOn_setNext (hb : b + k ≤ 2 ^ 64) (h : b + k ≤ a ∨ a + 24 ≤ b) :
    AgreeOn m (setNext m a v) b k :=
  agreeOn_store (by omega) hb (by omega)

theorem agreeOn_setBlockSize (hb : b + k ≤ 2 ^ 64) (h : b + k ≤ a ∨ a + 24 ≤ b) :
    AgreeOn m (setBlockSize m a v) b k := by
  have h8 : (a + 8) % 2 ^ 64 = a + 8 := Nat.mod_eq_of_lt (by omega)
  unfold setBlockSize
  rw [h8]
  exact agreeOn_store (by omega) hb (by omega)

/-- The magic byte lies behind the two other fields, so writing it only leaves `[a, a + 16)`. -/
theorem agreeOn_setBlockMagic (hb : b + k ≤ 2 ^ 64) (h : b + k ≤ a + 16 ∨ a + 24 ≤ b) :
    AgreeOn m (setBlockMagic m a v) b k := by
  have h16 : (a + 16) % 2 ^ 64 = a + 16 := Nat.mod_eq_of_lt (by omega)
  unfold setBlockMagic
  rw [h16]
  exact agreeOn_store (by omega) hb (by omega)

end Fields

/-! ## Lists of blocks -/

/-- What is on a list without one of its members is on the list. -/
theorem mem_middle_of_mem {α : Type} {x y : α} {pre post : List α} (h : y ∈ pre ++ post) :
    y ∈ pre ++ x :: post :=
  ((List.sublist_cons_self x post).append_left pre).subset h

/-- A free block: its address and its `size` field. -/
structure Block where
  addr : Nat
  size : Nat
  deriving DecidableEq, Repr

/-- The bytes of a free block. -/
def Block.span (b : Block) : Span := ⟨b.addr, FREE_BLOCK_SIZE + b.size⟩

@[simp] theorem Block.span_lo (b : Block) : b.span.lo = b.addr := rfl

theorem Block.apart_iff {b : Block} {t : Span} :
    Span.Apart b.span t ↔ b.addr + (24 + b.size) ≤ t.lo ∨ t.lo + t.len ≤ b.addr := Iff.rfl

@[simp] theorem Block.span_hi (b : Block) : b.span.hi = b.addr + (24 + b.size) := rfl

/-- Following `next` from `p` visits the blocks `bs` and arrives at `q`. -/
def FreeSeg (m : Mem) : Nat → List Block → Nat → Prop
  | p, [], q => p = q
  | p, b :: bs, q => p = b.addr ∧ blockSize m b.addr = b.size ∧ FreeSeg m (next m b.addr) bs q

/-- The free list that starts at `p` consists of the blocks `bs`. -/
structure FreeList (m : Mem) (p : Nat) (bs : List Block) : Prop where
  seg : FreeSeg m p bs 0
  nonNull : ∀ b ∈ bs, b.addr ≠ 0

/-- The blocks lie inside the address space and are pairwise apart. -/
structure Laid (bs : List Block) : Prop where
  bound : ∀ b ∈ bs, b.addr + (24 + b.size) < 2 ^ 64
  apart : (bs.map Block.span).Pairwise Span.Apart

variable {bs cs pre post : List Block} {b c d : Block}

@[simp] theorem freeSeg_nil : FreeSeg m p [] q ↔ p = q := Iff.rfl

@[simp] theorem freeSeg_cons : FreeSeg m p (c :: bs) q ↔
    p = c.addr ∧ blockSize m c.addr = c.size ∧ FreeSeg m (next m c.addr) bs q := Iff.rfl

theorem freeSeg_append : FreeSeg m p (bs ++ cs) q ↔ ∃ r, FreeSeg m p bs r ∧ FreeSeg m r cs q := by
  induction bs generalizing p with
  | nil => simp
  | cons b bs ih => simp only [List.cons_append, freeSeg_cons, ih]; tauto

/-- A segment only depends on the headers of its own blocks. -/
theorem FreeSeg.congr (h : FreeSeg m p bs q) (hb : ∀ b ∈ bs, b.addr + 16 ≤ 2 ^ 64)
    (hag : ∀ b ∈ bs, AgreeOn m m' b.addr 16) : FreeSeg m' p bs q := by
  induction bs generalizing p with
  | nil => exact h
  | cons b bs ih =>
    obtain ⟨rfl, hs, h⟩ := h
    have h16 := hb b (by simp)
    have hag16 := hag b (by simp)
    refine ⟨rfl, (blockSize_congr hag16 h16).trans hs, ?_⟩
    rw [next_congr hag16 h16]
    exact ih h (fun c hc => hb c (by simp [hc])) fun c hc => hag c (by simp [hc])

/-- Read as a chain of addresses. -/
theorem FreeSeg.seg (h : FreeSeg m p bs q) : Seg (next m) p (bs.map Block.addr) q := by
  induction bs generalizing p with
  | nil => exact h
  | cons b bs ih =>
    obtain ⟨rfl, -, h⟩ := h
    exact ⟨rfl, ih h⟩

theorem FreeSeg.blockSize_eq (h : FreeSeg m p bs q) (hc : c ∈ bs) : blockSize m c.addr = c.size := by
  induction bs generalizing p with
  | nil => cases hc
  | cons b bs ih =>
    obtain ⟨rfl, hs, h⟩ := h
    rcases List.mem_cons.mp hc with rfl | hc
    · exact hs
    · exact ih h hc

theorem FreeList.isChain (h : FreeList m p bs) : IsChain (next m) 0 p (bs.map Block.addr) := by
  refine ⟨h.seg.seg, fun hm => ?_⟩
  obtain ⟨b, hb, h0⟩ := List.mem_map.mp hm
  exact h.nonNull b hb h0

theorem freeList_nil : FreeList m p [] ↔ p = 0 :=
  ⟨fun h => h.seg, fun h => ⟨h, by simp⟩⟩

theorem freeList_cons : FreeList m p (c :: bs) ↔
    p = c.addr ∧ c.addr ≠ 0 ∧ blockSize m c.addr = c.size ∧ FreeList m (next m c.addr) bs := by
  constructor
  · rintro ⟨⟨rfl, hs, h⟩, hn⟩
    exact ⟨rfl, hn c (by simp), hs, h, fun b hb => hn b (by simp [hb])⟩
  · rintro ⟨rfl, h0, hs, h, hn⟩
    refine ⟨⟨rfl, hs, h⟩, fun b hb => ?_⟩
    rcases List.mem_cons.mp hb with rfl | hb
    · exact h0
    · exact hn b hb

/-- The start determines the blocks. -/
theorem FreeList.unique (h : FreeList m p bs) (h' : FreeList m p cs) : bs = cs := by
  induction bs generalizing p cs with
  | nil =>
    cases cs with
    | nil => rfl
    | cons c cs =>
      obtain ⟨h1, h2, -⟩ := freeList_cons.mp h'
      exact absurd (h1.symm.trans (freeList_nil.mp h)) h2
  | cons b bs ih =>
    obtain ⟨rfl, hb, hs, h⟩ := freeList_cons.mp h
    cases cs with
    | nil => exact absurd (freeList_nil.mp h') hb
    | cons c cs =>
      obtain ⟨h1, -, hs', h'⟩ := freeList_cons.mp h'
      have hbc : b = c := by
        cases b; cases c
        simp only at h1 hs hs'
        subst h1
        simp only [Block.mk.injEq, true_and]
        omega
      subst hbc
      rw [ih h h']

/-- **The blocks of the free list are exactly what following `next` meets.** -/
theorem FreeList.onChain_iff (h : FreeList m p bs) {x : Nat} :
    OnChain (next m) 0 p x ↔ ∃ b ∈ bs, b.addr = x ∧ b.size = blockSize m x := by
  rw [h.isChain.onChain_iff, List.mem_map]
  constructor
  · rintro ⟨b, hb, rfl⟩
    exact ⟨b, hb, rfl, (h.seg.blockSize_eq hb).symm⟩
  · rintro ⟨b, hb, rfl, -⟩
    exact ⟨b, hb, rfl⟩

/-! ## Layouts of blocks -/

theorem Laid.tail (h : Laid (c :: bs)) : Laid bs :=
  ⟨fun b hb => h.bound b (by simp [hb]), (List.pairwise_cons.mp h.apart).2⟩

theorem Laid.head_apart (h : Laid (c :: bs)) (hd : d ∈ bs) : Span.Apart c.span d.span :=
  (List.pairwise_cons.mp h.apart).1 _ (List.mem_map_of_mem hd)

theorem Laid.perm (h : Laid bs) (hp : bs.Perm cs) : Laid cs :=
  ⟨fun b hb => h.bound b (hp.mem_iff.mpr hb), (Span.pairwise_perm (hp.map _)).mp h.apart⟩

/-- The block in the middle of a layout is apart from the others. -/
theorem Laid.apart_of_mem (h : Laid (pre ++ c :: post)) (hd : d ∈ pre ++ post) :
    Span.Apart c.span d.span :=
  (h.perm List.perm_middle).head_apart hd

/-- Blocks that are apart keep their headers apart. -/
theorem Laid.header_apart (h : Laid (pre ++ c :: post)) (hd : d ∈ pre ++ post) :
    d.addr + 16 ≤ c.addr ∨ c.addr + (24 + c.size) ≤ d.addr := by
  have := h.apart_of_mem hd
  unfold Span.Apart at this
  simp only [Block.span_lo, Block.span_hi] at this
  omega

/-! ## Merging -/

/-- `b` absorbs the blocks that directly follow it, in the list and in memory. -/
def mergeFrom (b : Block) : List Block → List Block
  | [] => [b]
  | c :: cs =>
    if b.addr + 24 + b.size = c.addr then mergeFrom ⟨b.addr, b.size + (24 + c.size)⟩ cs
    else b :: mergeFrom c cs

/-- What `coalesce_blocks` makes of the free list. -/
def merge : List Block → List Block
  | [] => []
  | b :: bs => mergeFrom b bs

/-- A span apart from two adjacent blocks is apart from the block they merge into. -/
theorem apart_absorb {t : Span} (ht : 0 < t.len) (hadj : c.addr + 24 + c.size = b.addr)
    (hc : Span.Apart c.span t) (hb : Span.Apart b.span t) :
    Span.Apart (Block.span ⟨c.addr, c.size + (24 + b.size)⟩) t := by
  have hlen : 24 + (c.size + (24 + b.size)) = 24 + c.size + (24 + b.size) := by omega
  have h := hc.join ht hb (by rw [Block.span_hi, Block.span_lo]; omega)
  unfold Block.span at h ⊢
  simp only at h ⊢
  rw [hlen]
  exact h

/-- What holds of the blocks and survives absorbing holds of the merged blocks. -/
theorem mergeFrom_forall {P : Block → Prop}
    (hP : ∀ c b, P c → P b → c.addr + 24 + c.size = b.addr →
      P ⟨c.addr, c.size + (24 + b.size)⟩)
    (h : ∀ d ∈ c :: bs, P d) : ∀ d ∈ mergeFrom c bs, P d := by
  induction bs generalizing c with
  | nil => exact h
  | cons b bs ih =>
    rw [mergeFrom]
    split
    · rename_i hadj
      refine ih fun d hd => ?_
      rcases List.mem_cons.mp hd with rfl | hd
      · exact hP c b (h c (by simp)) (h b (by simp)) hadj
      · exact h d (by simp [hd])
    · intro d hd
      rcases List.mem_cons.mp hd with rfl | hd
      · exact h d (by simp)
      · exact ih (fun e he => h e (List.mem_cons_of_mem _ he)) d hd

/-- A block may absorb the one that starts where it ends. -/
theorem Laid.absorb (h : Laid (c :: b :: bs)) (hadj : c.addr + 24 + c.size = b.addr) :
    Laid (⟨c.addr, c.size + (24 + b.size)⟩ :: bs) := by
  have hb := h.bound b (by simp)
  refine ⟨fun d hd => ?_, ?_⟩
  · rcases List.mem_cons.mp hd with rfl | hd
    · simp only
      omega
    · exact h.bound d (by simp [hd])
  · have hlen : 24 + (c.size + (24 + b.size)) = 24 + c.size + (24 + b.size) := by omega
    have hpos : ∀ x ∈ bs.map Block.span, 0 < x.len := fun x hx => by
      obtain ⟨d, -, rfl⟩ := List.mem_map.mp hx
      show 0 < FREE_BLOCK_SIZE + d.size
      simp
    have hj := Span.pairwise_join h.apart hpos (by rw [Block.span_hi, Block.span_lo]; omega)
    simp only [List.map_cons, Block.span] at hj ⊢
    rw [hlen]
    exact hj

/-- Merging keeps a layout a layout. -/
theorem Laid.mergeFrom (h : Laid (c :: bs)) : Laid (mergeFrom c bs) := by
  induction bs generalizing c with
  | nil => exact h
  | cons b bs ih =>
    rw [Memory.mergeFrom]
    split
    · rename_i hadj
      exact ih (h.absorb hadj)
    · refine ⟨fun d hd => ?_, ?_⟩
      · rcases List.mem_cons.mp hd with rfl | hd
        · exact h.bound d (by simp)
        · exact (ih h.tail).bound d hd
      · rw [List.map_cons]
        refine List.pairwise_cons.mpr ⟨fun x hx => ?_, (ih h.tail).apart⟩
        obtain ⟨d, hd, rfl⟩ := List.mem_map.mp hx
        refine (mergeFrom_forall (P := fun e => e.span.Apart c.span) (fun e f he hf hadj =>
          apart_absorb (by simp [Block.span]) hadj he hf) (fun e he => ?_) d hd).symm
        exact (h.head_apart he).symm

/-! ## What an edit of the list leaves alone -/

/-- Bytes outside the blocks `bs` are the same. -/
def Untouched (bs : List Block) (m m' : Mem) : Prop :=
  ∀ t : Span, 0 < t.len → t.hi ≤ 2 ^ 64 → (∀ d ∈ bs, Span.Apart d.span t) →
    AgreeOn m m' t.lo t.len

/-- The blocks `cs` lie where the blocks `bs` lie. -/
def Inside (cs bs : List Block) : Prop :=
  ∀ t : Span, 0 < t.len → (∀ d ∈ bs, Span.Apart d.span t) → ∀ d ∈ cs, Span.Apart d.span t

theorem Untouched.trans {m'' : Mem} (h : Untouched bs m m') (h' : Untouched cs m' m'')
    (hsub : Inside cs bs) : Untouched bs m m'' :=
  fun t ht hhi hap => (h t ht hhi hap).trans (h' t ht hhi (hsub t ht hap))

theorem Inside.refl (bs : List Block) : Inside bs bs := fun _ _ h => h

theorem Inside.trans {ds : List Block} (h : Inside ds cs) (h' : Inside cs bs) : Inside ds bs :=
  fun t ht hap => h t ht (h' t ht hap)

/-- From `s` to `s'` only bytes of the blocks `bs`, the list head and `free_memory` change. -/
structure Frame (bs : List Block) (s s' : State) : Prop where
  outside : Untouched bs s.mem s'.mem
  rest : s' = { s with mem := s'.mem, freeList := s'.freeList, freeMemory := s'.freeMemory }

variable {s s' s'' : State}

theorem Frame.refl (bs : List Block) (s : State) : Frame bs s s :=
  ⟨fun _ _ _ _ => .refl _ _ _, rfl⟩

/-- An edit of the bytes of blocks and of `free_memory`. -/
theorem Frame.ofMem {f : Nat} (h : Untouched bs s.mem m) :
    Frame bs s { s with mem := m, freeMemory := f } := ⟨h, rfl⟩

/-- Two edits in a row, the second one of blocks that lie where the first one's blocks lay. -/
theorem Frame.trans (h : Frame bs s s') (h' : Frame cs s' s'') (hsub : Inside cs bs) :
    Frame bs s s'' := by
  refine ⟨h.outside.trans h'.outside hsub, ?_⟩
  rw [h'.rest, h.rest]

theorem Frame.initialized (h : Frame bs s s') : s'.initialized = s.initialized := by rw [h.rest]

theorem Frame.heapStart (h : Frame bs s s') : s'.heapStart = s.heapStart := by rw [h.rest]

theorem Frame.heapEnd (h : Frame bs s s') : s'.heapEnd = s.heapEnd := by rw [h.rest]

theorem Frame.usedMemory (h : Frame bs s s') : s'.usedMemory = s.usedMemory := by rw [h.rest]

theorem Frame.totalMemory (h : Frame bs s s') : s'.totalMemory = s.totalMemory := by rw [h.rest]

/-- The header of a block apart from the edited ones is as it was. -/
theorem Frame.header (h : Frame bs s s') (hc : c.addr + (24 + c.size) < 2 ^ 64)
    (hap : ∀ d ∈ bs, Span.Apart d.span c.span) : AgreeOn s.mem s'.mem c.addr 16 :=
  (h.outside c.span (by simp [Block.span]) (by rw [Block.span_hi]; omega) hap).mono
    (Nat.le_refl _) (by show c.addr + 16 ≤ c.addr + (24 + c.size); omega)

/-! ## `coalesce_blocks` -/

theorem inside_absorb (hadj : c.addr + 24 + c.size = b.addr) :
    Inside (⟨c.addr, c.size + (24 + b.size)⟩ :: bs) (c :: b :: bs) := by
  intro t ht hap d hd
  rcases List.mem_cons.mp hd with rfl | hd
  · exact apart_absorb ht hadj (hap c (by simp)) (hap b (by simp))
  · exact hap d (by simp [hd])

/-- One merge: `c` takes over the bytes and the successor of `b`. -/
theorem FreeList.absorb (h : FreeList m c.addr (c :: b :: bs)) (hl : Laid (c :: b :: bs))
    (hv : v < 2 ^ 64) :
    FreeList (setNext (setBlockSize m c.addr v) c.addr
      (next (setBlockSize m c.addr v) b.addr)) c.addr (⟨c.addr, v⟩ :: bs) := by
  obtain ⟨-, hc, -, h⟩ := freeList_cons.mp h
  obtain ⟨-, hb, -, h⟩ := freeList_cons.mp h
  have hcb := hl.bound c (by simp)
  have h24 : c.addr + 24 ≤ 2 ^ 64 := by omega
  have happ : ∀ d ∈ b :: bs, d.addr + 16 ≤ c.addr ∨ c.addr + 24 ≤ d.addr := fun d hd => by
    have := @Laid.header_apart [] (b :: bs) c d hl hd
    omega
  have hnb : next (setBlockSize m c.addr v) b.addr = next m b.addr := by
    have := hl.bound b (by simp)
    exact next_congr (agreeOn_setBlockSize h24 (by omega) (happ b (by simp))) (by omega)
  have hx := next_lt m b.addr
  rw [hnb]
  refine freeList_cons.mpr ⟨rfl, hc, ?_, ?_⟩
  · show blockSize (setNext (setBlockSize m c.addr v) c.addr _) c.addr = v
    rw [blockSize_setNext h24, blockSize_setBlockSize h24 hv]
  · rw [next_setNext h24 hx]
    have hbd : ∀ d ∈ bs, d.addr + 16 ≤ 2 ^ 64 := fun d hd => by
      have := hl.bound d (by simp [hd])
      omega
    refine ⟨h.seg.congr hbd fun d hd => ?_, h.nonNull⟩
    have hd16 := hbd d hd
    have hdc := happ d (by simp [hd])
    exact (agreeOn_setBlockSize h24 hd16 hdc).trans (agreeOn_setNext h24 hd16 hdc)

theorem Frame.absorb (hl : Laid (c :: bs)) : Frame (c :: bs) s
    { s with mem := setNext (setBlockSize s.mem c.addr v) c.addr n, freeMemory := q } := by
  have hcb := hl.bound c (by simp)
  refine Frame.ofMem fun t _ hhi hap => ?_
  have hct := Block.apart_iff.mp (hap c (by simp))
  have h24 : c.addr + 24 ≤ 2 ^ 64 := by omega
  have ht : t.lo + t.len ≤ c.addr ∨ c.addr + 24 ≤ t.lo := by omega
  exact (agreeOn_setBlockSize h24 hhi ht).trans (agreeOn_setNext h24 hhi ht)

/-- **The loop of `coalesce_blocks` turns the list into the merged list.** -/
theorem coalesceLoop_spec (h : coalesceLoop fuel s c.addr = some s')
    (hl : FreeList s.mem c.addr (c :: bs)) (hlay : Laid (c :: bs)) :
    FreeList s'.mem c.addr (mergeFrom c bs) ∧ Frame (c :: bs) s s' ∧
      s'.freeList = s.freeList ∧
      s'.freeMemory + 24 * (mergeFrom c bs).length ≡
        s.freeMemory + 24 * (bs.length + 1) [MOD 2 ^ 64] := by
  induction bs generalizing fuel s c with
  | nil =>
    obtain ⟨-, hc, -, hn⟩ := freeList_cons.mp hl
    have hn0 := freeList_nil.mp hn
    cases fuel with
    | zero => cases h
    | succ fuel =>
      simp only [coalesceLoop, if_neg hc, hn0, ne_eq, not_true_eq_false, false_and,
        if_false] at h
      cases fuel with
      | zero => cases h
      | succ fuel =>
        simp only [coalesceLoop, if_true, Option.some.injEq] at h
        subst h
        exact ⟨hl, .refl _ _, rfl, .refl _⟩
  | cons b bs ih =>
    obtain ⟨-, hc, hcs, hn⟩ := freeList_cons.mp hl
    obtain ⟨hnb, hb, hbs, -⟩ := freeList_cons.mp hn
    have hcb := hlay.bound c (by simp)
    have hbb := hlay.bound b (by simp)
    cases fuel with
    | zero => cases h
    | succ fuel =>
      simp only [coalesceLoop, if_neg hc, hnb, hcs, hbs, ne_eq, hb, not_false_eq_true,
        true_and] at h
      rw [Nat.mod_eq_of_lt (by omega : c.addr + 24 + c.size < 2 ^ 64)] at h
      rw [mergeFrom]
      split at h
      · rename_i hadj
        rw [if_pos hadj]
        have hv : c.size + (24 + b.size) < 2 ^ 64 := by omega
        rw [Nat.mod_eq_of_lt hv] at h
        obtain ⟨h1, h2, h3, h4⟩ :=
          ih (c := ⟨c.addr, c.size + (24 + b.size)⟩) h (hl.absorb hlay hv) (hlay.absorb hadj)
        have hfr := Frame.absorb (s := s) (v := c.size + (24 + b.size))
          (n := next (setBlockSize s.mem c.addr (c.size + (24 + b.size))) b.addr)
          (q := (s.freeMemory + FREE_BLOCK_SIZE) % 2 ^ 64) hlay
        refine ⟨h1, hfr.trans h2 (inside_absorb hadj), h3, h4.trans ?_⟩
        · have := (Nat.mod_modEq (s.freeMemory + 24) (2 ^ 64)).add_right (24 * (bs.length + 1))
          rw [show s.freeMemory + 24 + 24 * (bs.length + 1) =
            s.freeMemory + 24 * (bs.length + 1 + 1) by omega] at this
          exact this
      · rename_i hadj
        rw [if_neg hadj]
        obtain ⟨h1, h2, h3, h4⟩ := ih h (hnb ▸ hn) hlay.tail
        have hag := h2.header hcb fun d hd => (hlay.head_apart hd).symm
        refine ⟨freeList_cons.mpr ⟨rfl, hc, ?_, ?_⟩, ?_, h3, ?_⟩
        · rw [blockSize_congr hag (by omega), hcs]
        · rw [next_congr hag (by omega), hnb]
          exact h1
        · exact ⟨fun t ht hhi hap => h2.outside t ht hhi fun d hd => hap d (by simp [hd]), h2.rest⟩
        · have := h4.add_right 24
          simp only [List.length_cons]
          rw [show s'.freeMemory + 24 * ((mergeFrom b bs).length + 1) =
              s'.freeMemory + 24 * (mergeFrom b bs).length + 24 by omega,
            show s.freeMemory + 24 * (bs.length + 1 + 1) =
              s.freeMemory + 24 * (bs.length + 1) + 24 by omega]
          exact this

/-- The loop ends: every round either merges two blocks or moves on. -/
theorem coalesceLoop_ends (hl : FreeList s.mem p bs) (hlay : Laid bs) (hf : bs.length < fuel) :
    ∃ s', coalesceLoop fuel s p = some s' := by
  induction fuel generalizing s p bs with
  | zero => exact absurd hf (Nat.not_lt_zero _)
  | succ fuel ih =>
    cases bs with
    | nil => exact ⟨s, if_pos (freeList_nil.mp hl)⟩
    | cons c bs =>
      simp only [List.length_cons] at hf
      obtain ⟨rfl, hc, hcs, hn⟩ := freeList_cons.mp hl
      simp only [coalesceLoop, if_neg hc]
      split
      · rename_i hadj
        cases bs with
        | nil => exact absurd (freeList_nil.mp hn) hadj.1
        | cons b bs =>
          obtain ⟨hnb, -, hbs, -⟩ := freeList_cons.mp hn
          have hcb := hlay.bound c (by simp)
          have hbb := hlay.bound b (by simp)
          have hadj' : c.addr + 24 + c.size = b.addr := by
            have := hadj.2
            rw [hcs, hnb, Nat.mod_eq_of_lt (by show c.addr + 24 + c.size < 2 ^ 64; omega)] at this
            exact this
          have hv : c.size + (24 + b.size) < 2 ^ 64 := by omega
          rw [hnb, hcs, hbs, Nat.mod_eq_of_lt hv]
          have hl' := hl.absorb hlay hv
          exact ih hl' (hlay.absorb hadj') (by simp only [List.length_cons] at hf ⊢; omega)
      · exact ih hn hlay.tail (by omega)

theorem Laid.merge (h : Laid bs) : Laid (merge bs) := by
  cases bs with
  | nil => exact h
  | cons c bs => exact h.mergeFrom

theorem merge_forall {P : Block → Prop}
    (hP : ∀ c b, P c → P b → c.addr + 24 + c.size = b.addr →
      P ⟨c.addr, c.size + (24 + b.size)⟩)
    (h : ∀ d ∈ bs, P d) : ∀ d ∈ merge bs, P d := by
  cases bs with
  | nil => exact h
  | cons c bs => exact mergeFrom_forall hP h

theorem inside_merge (bs : List Block) : Inside (merge bs) bs := fun t ht h =>
  merge_forall (P := fun d => d.span.Apart t) (fun _ _ hc hb hadj => apart_absorb ht hadj hc hb) h

theorem mergeFrom_length_le (c : Block) (bs : List Block) :
    (mergeFrom c bs).length ≤ bs.length + 1 := by
  induction bs generalizing c with
  | nil => simp [mergeFrom]
  | cons b bs ih =>
    rw [mergeFrom, List.length_cons]
    split
    · have := ih ⟨c.addr, c.size + (24 + b.size)⟩
      omega
    · have := ih b
      rw [List.length_cons]
      omega

theorem merge_length_le (bs : List Block) : (merge bs).length ≤ bs.length := by
  cases bs with
  | nil => exact Nat.le_refl _
  | cons c bs => exact mergeFrom_length_le c bs

theorem mergeFrom_ne_nil (c : Block) (bs : List Block) : mergeFrom c bs ≠ [] := by
  induction bs generalizing c with
  | nil => simp [mergeFrom]
  | cons b bs ih =>
    rw [mergeFrom]
    split
    · exact ih _
    · simp

theorem merge_ne_nil (h : bs ≠ []) : merge bs ≠ [] := by
  cases bs with
  | nil => exact absurd rfl h
  | cons c bs => exact mergeFrom_ne_nil c bs

/-- **`coalesce_blocks` leaves the merged list.** -/
theorem coalesceBlocks_spec (h : coalesceBlocks fuel s = some s')
    (hl : FreeList s.mem s.freeList bs) (hlay : Laid bs) :
    FreeList s'.mem s'.freeList (merge bs) ∧ Frame bs s s' ∧
      s'.freeMemory + 24 * (merge bs).length ≡ s.freeMemory + 24 * bs.length [MOD 2 ^ 64] := by
  unfold coalesceBlocks at h
  cases bs with
  | nil =>
    rw [freeList_nil.mp hl] at h
    cases fuel with
    | zero => cases h
    | succ fuel =>
      simp only [coalesceLoop, if_true, Option.some.injEq] at h
      subst h
      exact ⟨hl, .refl _ _, .refl _⟩
  | cons c bs =>
    have hp := (freeList_cons.mp hl).1
    rw [hp] at h hl
    obtain ⟨h1, h2, h3, h4⟩ := coalesceLoop_spec h hl hlay
    rw [h3, hp]
    exact ⟨h1, h2, h4⟩

/-! ## `find_best_fit` -/

/-- **The search returns a smallest block that is large enough, if there is one.** -/
theorem bestFitLoop_spec {best bestSize : Nat}
    (h : bestFitLoop m size fuel p best bestSize = some r) (hl : FreeList m p bs) :
    (r = best ∧ ∀ c ∈ bs, ¬ (size ≤ c.size ∧ c.size < bestSize)) ∨
      ∃ b ∈ bs, r = b.addr ∧ size ≤ b.size ∧ b.size < bestSize ∧
        ∀ c ∈ bs, size ≤ c.size → b.size ≤ c.size := by
  induction bs generalizing fuel p best bestSize with
  | nil =>
    cases fuel with
    | zero => cases h
    | succ fuel =>
      rw [bestFitLoop, if_pos (freeList_nil.mp hl)] at h
      exact .inl ⟨(Option.some.inj h).symm, by simp⟩
  | cons b bs ih =>
    obtain ⟨rfl, hb, hs, hn⟩ := freeList_cons.mp hl
    cases fuel with
    | zero => cases h
    | succ fuel =>
      rw [bestFitLoop, if_neg hb, hs] at h
      split at h
      · rename_i hfit
        split at h
        · rename_i heq
          refine .inr ⟨b, by simp, (Option.some.inj h).symm, hfit.1, hfit.2, fun c _ hc => ?_⟩
          omega
        · rcases ih h hn with ⟨rfl, hno⟩ | ⟨c, hc, rfl, h1, h2, h3⟩
          · refine .inr ⟨b, by simp, rfl, hfit.1, hfit.2, fun c hc hsz => ?_⟩
            rcases List.mem_cons.mp hc with rfl | hc
            · exact Nat.le_refl _
            · have := hno c hc
              omega
          · refine .inr ⟨c, by simp [hc], rfl, h1, by omega, fun d hd hsz => ?_⟩
            rcases List.mem_cons.mp hd with rfl | hd
            · omega
            · exact h3 d hd hsz
      · rename_i hfit
        rcases ih h hn with ⟨rfl, hno⟩ | ⟨c, hc, rfl, h1, h2, h3⟩
        · refine .inl ⟨rfl, fun c hc => ?_⟩
          rcases List.mem_cons.mp hc with rfl | hc
          · exact hfit
          · exact hno c hc
        · refine .inr ⟨c, by simp [hc], rfl, h1, h2, fun d hd hsz => ?_⟩
          rcases List.mem_cons.mp hd with rfl | hd
          · omega
          · exact h3 d hd hsz

theorem findBestFit_spec (h : findBestFit fuel s size = some r)
    (hl : FreeList s.mem s.freeList bs) :
    (r = 0 ∧ ∀ c ∈ bs, ¬ (size ≤ c.size ∧ c.size < SIZE_MAX)) ∨
      ∃ b ∈ bs, r = b.addr ∧ size ≤ b.size ∧ ∀ c ∈ bs, size ≤ c.size → b.size ≤ c.size := by
  rcases bestFitLoop_spec h hl with h | ⟨b, hb, h1, h2, -, h3⟩
  · exact .inl h
  · exact .inr ⟨b, hb, h1, h2, h3⟩

theorem bestFitLoop_ends {best bestSize : Nat} (hl : FreeList m p bs) (hf : bs.length < fuel) :
    ∃ r, bestFitLoop m size fuel p best bestSize = some r := by
  induction bs generalizing fuel p best bestSize with
  | nil =>
    cases fuel with
    | zero => cases hf
    | succ fuel => exact ⟨best, if_pos (freeList_nil.mp hl)⟩
  | cons b bs ih =>
    cases fuel with
    | zero => cases hf
    | succ fuel =>
      obtain ⟨rfl, hb, -, hn⟩ := freeList_cons.mp hl
      have hf' : bs.length < fuel := Nat.lt_of_succ_lt_succ hf
      rw [bestFitLoop, if_neg hb]
      split
      · split
        · exact ⟨_, rfl⟩
        · exact ih hn hf'
      · exact ih hn hf'

theorem findBestFit_ends (hl : FreeList s.mem s.freeList bs) (hf : bs.length < fuel)
    (size : Nat) : ∃ r, findBestFit fuel s size = some r := bestFitLoop_ends hl hf

/-! ## `remove_from_free_list` -/

/-- The walk stops at the predecessor of `c`. -/
theorem predecessorLoop_spec (h : predecessorLoop m c.addr fuel p = some r)
    (hl : FreeList m p (pre ++ b :: c :: post)) : r = b.addr := by
  induction pre generalizing fuel p with
  | nil =>
    obtain ⟨rfl, hb, -, hn⟩ := freeList_cons.mp hl
    cases fuel with
    | zero => cases h
    | succ fuel =>
      rw [predecessorLoop, if_pos (.inr (freeList_cons.mp hn).1)] at h
      exact (Option.some.inj h).symm
  | cons d pre ih =>
    obtain ⟨rfl, hd, -, hn⟩ := freeList_cons.mp hl
    cases fuel with
    | zero => cases h
    | succ fuel =>
      -- the successor of `d` starts the rest of the list, in which `c` does not come first
      have hne : next m d.addr ≠ c.addr := fun heq => by
        have hnd := hn.isChain.nodup
        cases pre with
        | nil =>
          have h1 := (freeList_cons.mp hn).1
          simp [← h1, heq] at hnd
        | cons e pre =>
          have h1 := (freeList_cons.mp hn).1
          simp [← h1, heq] at hnd
      rw [predecessorLoop, if_neg (by simp [hd, hne])] at h
      exact ih h hn

theorem predecessorLoop_ends (hl : FreeList m p bs) (hf : bs.length < fuel) :
    ∃ r, predecessorLoop m k fuel p = some r := by
  induction bs generalizing fuel p with
  | nil =>
    cases fuel with
    | zero => cases hf
    | succ fuel => exact ⟨p, if_pos (.inl (freeList_nil.mp hl))⟩
  | cons b bs ih =>
    cases fuel with
    | zero => cases hf
    | succ fuel =>
      obtain ⟨rfl, hb, -, hn⟩ := freeList_cons.mp hl
      rw [predecessorLoop]
      split
      · exact ⟨_, rfl⟩
      · exact ih hn (Nat.lt_of_succ_lt_succ hf)

/-- **`remove_from_free_list` takes the block out and leaves the rest in order.** -/
theorem removeFromFreeList_spec (h : removeFromFreeList fuel s c.addr = some s')
    (hl : FreeList s.mem s.freeList (pre ++ c :: post)) (hlay : Laid (pre ++ c :: post)) :
    FreeList s'.mem s'.freeList (pre ++ post) ∧ Frame (pre ++ c :: post) s s' ∧
      s'.freeMemory = s.freeMemory := by
  unfold removeFromFreeList at h
  rcases List.eq_nil_or_concat pre with rfl | ⟨pre, b, rfl⟩
  · obtain ⟨hp, -, -, hn⟩ := freeList_cons.mp hl
    rw [if_pos hp] at h
    cases h
    exact ⟨hn, ⟨fun _ _ _ _ => .refl _ _ _, rfl⟩, rfl⟩
  · simp only [List.concat_eq_append, List.append_assoc, List.singleton_append] at hl hlay ⊢
    -- the head of the list stands before `c`, so it is not `c`
    have hne : s.freeList ≠ c.addr := fun heq => by
      have hnd := hl.isChain.nodup
      cases pre with
      | nil => simp [← (freeList_cons.mp hl).1, heq] at hnd
      | cons d pre => simp [← (freeList_cons.mp hl).1, heq] at hnd
    rw [if_neg hne] at h
    obtain ⟨r, hr, h⟩ := Option.map_eq_some_iff.mp h
    have hrb := predecessorLoop_spec hr hl
    subst hrb
    obtain ⟨r, hpre, rfl, hbs, hrest⟩ := freeSeg_append.mp hl.seg
    obtain ⟨hbc, -, hpost⟩ := hrest
    rw [if_neg (hl.nonNull b (by simp))] at h
    subst h
    have hbb := hlay.bound b (by simp)
    have h24 : b.addr + 24 ≤ 2 ^ 64 := by omega
    have hbd : ∀ d ∈ pre ++ c :: post, d.addr + 16 ≤ 2 ^ 64 := fun d hd => by
      have := hlay.bound d (mem_middle_of_mem hd)
      omega
    have hag : ∀ d ∈ pre ++ c :: post,
        AgreeOn s.mem (setNext s.mem b.addr (next s.mem c.addr)) d.addr 16 := fun d hd => by
      have := hlay.header_apart hd
      exact agreeOn_setNext h24 (hbd d hd) (by omega)
    refine ⟨⟨freeSeg_append.mpr ⟨b.addr, ?_, rfl, ?_, ?_⟩, ?_⟩, ⟨fun t _ hhi hap => ?_, rfl⟩, rfl⟩
    · exact hpre.congr (fun d hd => hbd d (by simp [hd])) fun d hd => hag d (by simp [hd])
    · rw [blockSize_setNext h24, hbs]
    · rw [next_setNext h24 (next_lt _ _)]
      exact hpost.congr (fun d hd => hbd d (by simp [hd])) fun d hd => hag d (by simp [hd])
    · intro d hd
      apply hl.nonNull d
      simp only [List.mem_append, List.mem_cons] at hd ⊢
      tauto
    · have hbt := Block.apart_iff.mp (hap b (by simp))
      exact agreeOn_setNext h24 hhi (by omega)

theorem removeFromFreeList_ends (hl : FreeList s.mem s.freeList bs) (hf : bs.length < fuel) :
    ∃ s', removeFromFreeList fuel s k = some s' := by
  unfold removeFromFreeList
  split
  · exact ⟨_, rfl⟩
  · obtain ⟨r, hr⟩ := predecessorLoop_ends (k := k) hl hf
    exact ⟨_, by rw [hr]; rfl⟩

/-! ## `split_block` -/

/-- The block `split_block` cuts off, and nothing where the rest is too small for one. -/
def cutOff (c : Block) (size : Nat) : List Block :=
  if c.size - size - 24 < 32 then [] else [⟨c.addr + 24 + size, c.size - size - 24⟩]

/-- What is left of `c` when `size` bytes are asked for. -/
def shrunk (c : Block) (size : Nat) : Block :=
  if c.size - size - 24 < 32 then c else ⟨c.addr, size⟩

/-- The stores of `split_block`. -/
def splitMem (m : Mem) (block newBlock size remaining : Nat) : Mem :=
  let m := setBlockMagic (setBlockSize m newBlock remaining) newBlock BLOCK_MAGIC
  let m := setNext m newBlock (next m block)
  setNext (setBlockSize m block size) block newBlock

theorem splitBlock_of_lt (h : c.size - size - 24 < 32) (hfit : size + 24 ≤ c.size)
    (hs : blockSize s.mem c.addr = c.size) : splitBlock s c.addr size = s := by
  have hlt := blockSize_lt s.mem c.addr
  have h1 : sub64 (sub64 c.size size) 24 = c.size - size - 24 := sub64_sub64 hfit (by omega)
  unfold splitBlock
  rw [hs, h1, if_pos h]

theorem splitBlock_of_le (h : ¬ c.size - size - 24 < 32) (hfit : size + 24 ≤ c.size)
    (hs : blockSize s.mem c.addr = c.size)
    (hb : c.addr + (24 + c.size) < 2 ^ 64) :
    splitBlock s c.addr size = { s with
      mem := splitMem s.mem c.addr (c.addr + 24 + size) size (c.size - size - 24)
      freeMemory := sub64 s.freeMemory 24 } := by
  have h1 : sub64 (sub64 c.size size) 24 = c.size - size - 24 := sub64_sub64 hfit (by omega)
  unfold splitBlock splitMem
  rw [hs, h1, if_neg h, Nat.mod_eq_of_lt (by show c.addr + 24 + size < 2 ^ 64; omega)]

section SplitMem

variable {newBlock remaining : Nat} (h24 : a + 24 ≤ newBlock) (hn : newBlock + 24 ≤ 2 ^ 64)
include h24 hn

/-- The stores stay inside the two headers. -/
theorem agreeOn_splitMem {t : Nat} (hk : t + k ≤ 2 ^ 64) (h1 : t + k ≤ a ∨ a + 24 ≤ t)
    (h2 : t + k ≤ newBlock ∨ newBlock + 24 ≤ t) :
    AgreeOn m (splitMem m a newBlock size remaining) t k :=
  ((((agreeOn_setBlockSize hn hk h2).trans (agreeOn_setBlockMagic hn hk (by omega))).trans
    (agreeOn_setNext hn hk h2)).trans (agreeOn_setBlockSize (by omega) hk h1)).trans
    (agreeOn_setNext (by omega) hk h1)

theorem next_splitMem : next (splitMem m a newBlock size remaining) a = newBlock :=
  next_setNext (by omega) (by omega)

theorem blockSize_splitMem (hs : size < 2 ^ 64) :
    blockSize (splitMem m a newBlock size remaining) a = size := by
  unfold splitMem
  rw [blockSize_setNext (by omega), blockSize_setBlockSize (by omega) hs]

/-- The new block takes over the successor. -/
theorem next_splitMem_new : next (splitMem m a newBlock size remaining) newBlock = next m a := by
  have ha : a + 16 ≤ newBlock ∨ newBlock + 24 ≤ a := by omega
  have hb : newBlock + 16 ≤ a ∨ a + 24 ≤ newBlock := by omega
  have hold : next (setBlockMagic (setBlockSize m newBlock remaining) newBlock BLOCK_MAGIC) a =
      next m a :=
    next_congr ((agreeOn_setBlockSize hn (by omega) ha).trans
      (agreeOn_setBlockMagic hn (by omega) (by omega))) (by omega)
  unfold splitMem
  simp only [hold]
  rw [next_congr (agreeOn_setNext (by omega) (by omega) hb) (by omega),
    next_congr (agreeOn_setBlockSize (by omega) (by omega) hb) (by omega),
    next_setNext hn (next_lt _ _)]

theorem blockSize_splitMem_new (hr : remaining < 2 ^ 64) :
    blockSize (splitMem m a newBlock size remaining) newBlock = remaining := by
  have hb : newBlock + 16 ≤ a ∨ a + 24 ≤ newBlock := by omega
  unfold splitMem
  rw [blockSize_congr (agreeOn_setNext (by omega) (by omega) hb) (by omega),
    blockSize_congr (agreeOn_setBlockSize (by omega) (by omega) hb) (by omega),
    blockSize_setNext hn, blockSize_congr (agreeOn_setBlockMagic hn (by omega) (by omega)) (by omega),
    blockSize_setBlockSize hn hr]

end SplitMem

/-- **`split_block` cuts the block in two, if the rest is large enough.** -/
theorem splitBlock_spec (hl : FreeList s.mem s.freeList (pre ++ c :: post))
    (hlay : Laid (pre ++ c :: post)) (hfit : size + 24 ≤ c.size) :
    FreeList (splitBlock s c.addr size).mem (splitBlock s c.addr size).freeList
        (pre ++ shrunk c size :: (cutOff c size ++ post)) ∧
      Frame (pre ++ c :: post) s (splitBlock s c.addr size) ∧
      (splitBlock s c.addr size).freeMemory + 24 * (cutOff c size).length ≡
        s.freeMemory [MOD 2 ^ 64] := by
  obtain ⟨r, hpre, rfl, hs, hpost⟩ := freeSeg_append.mp hl.seg
  by_cases hlt : c.size - size - 24 < 32
  · rw [splitBlock_of_lt hlt hfit hs]
    unfold shrunk cutOff
    simp only [if_pos hlt]
    exact ⟨hl, .refl _ _, .refl _⟩
  · have hcb := hlay.bound c (by simp)
    rw [splitBlock_of_le hlt hfit hs hcb]
    unfold shrunk cutOff
    simp only [if_neg hlt, List.singleton_append]
    have h24 : c.addr + 24 ≤ c.addr + 24 + size := by omega
    have hn : c.addr + 24 + size + 24 ≤ 2 ^ 64 := by omega
    have hbd : ∀ d ∈ pre ++ post, d.addr + 16 ≤ 2 ^ 64 := fun d hd => by
      have := hlay.bound d (mem_middle_of_mem hd)
      omega
    have hag : ∀ d ∈ pre ++ post, AgreeOn s.mem (splitMem s.mem c.addr (c.addr + 24 + size) size
        (c.size - size - 24)) d.addr 16 := fun d hd => by
      have := hlay.header_apart hd
      exact agreeOn_splitMem h24 hn (hbd d hd) (by omega) (by omega)
    refine ⟨⟨freeSeg_append.mpr ⟨c.addr, ?_, rfl, ?_, ?_, ?_, ?_⟩, ?_⟩, Frame.ofMem ?_, ?_⟩
    · exact hpre.congr (fun d hd => hbd d (by simp [hd])) fun d hd => hag d (by simp [hd])
    · exact blockSize_splitMem h24 hn (by omega)
    · exact next_splitMem h24 hn
    · exact blockSize_splitMem_new h24 hn (by omega)
    · rw [next_splitMem_new h24 hn]
      exact hpost.congr (fun d hd => hbd d (by simp [hd])) fun d hd => hag d (by simp [hd])
    · intro d hd
      simp only [List.mem_append, List.mem_cons] at hd
      rcases hd with hd | rfl | rfl | hd
      · exact hl.nonNull d (by simp [hd])
      · exact hl.nonNull c (by simp)
      · show c.addr + 24 + size ≠ 0
        omega
      · exact hl.nonNull d (by simp [hd])
    · intro t _ hhi hap
      have hct := Block.apart_iff.mp (hap c (by simp))
      exact agreeOn_splitMem h24 hn hhi (by omega) (by omega)
    · exact sub64_modEq (by omega)

/-! ## `memory_integrity_check` -/

theorem integrityLoop_ends (hl : FreeList m p bs) (hf : bs.length < fuel) (acc cnt : Nat) :
    ∃ r, integrityLoop m fuel p acc cnt = some r := by
  induction bs generalizing fuel p acc cnt with
  | nil =>
    cases fuel with
    | zero => cases hf
    | succ fuel => exact ⟨_, if_pos (freeList_nil.mp hl)⟩
  | cons b bs ih =>
    cases fuel with
    | zero => cases hf
    | succ fuel =>
      obtain ⟨rfl, hb, -, hn⟩ := freeList_cons.mp hl
      rw [integrityLoop, if_neg hb]
      exact ih hn (Nat.lt_of_succ_lt_succ hf) _ _

end OSCompas.Memory
