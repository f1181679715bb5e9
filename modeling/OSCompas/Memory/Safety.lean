import OSCompas.Memory.Calls
import Mathlib.Order.Interval.Set.Disjoint
import Mathlib.Order.CompletePartialOrder

/-!
# Runs of the heap

Callers that keep to the interface (`Legal`), in runs in which every search picks well and every
block given back fits back (`OpOk`).

* `Holds` — the memory and the callers' allocations are the two halves of one layout;
* `PayloadsSafe` — live payloads are aligned, inside the heap, pairwise disjoint and off every
  free block;
* `LoopsEnd` — the free list is finite and the loops over it end.

Principal results: `step_moved`, `run_holds` (every guarded run is a run of layouts),
`payloads_safe` and `loops_end`; and that each fails in a run without the guard.
-/

set_option autoImplicit false

namespace OSCompas.Memory

open ByteMemory Chain Runs

variable {m m' : Mem} {k n p r size fuel requested : Nat} {s s' : State} {w w' : World} {op : Op}
variable {bs cs : List Block} {b c d : Block} {l l' : Layout} {hs pre post : List Held} {x y : Held}

/-! ## The guard -/

/-- What a call needs of the state before it. -/
def OpOk (w : World) : Op → Prop
  | .kmalloc size => size = 0 ∨ SearchOk w.heap size size
  | .kcalloc num size => num * size % 2 ^ 64 = 0 ∨
      SearchOk w.heap (num * size) (num * size % 2 ^ 64)
  | .krealloc ptr size =>
    if ptr = 0 then size = 0 ∨ SearchOk w.heap size size
    else if size = 0 then FitsBack w ptr
    else size ≤ headerSize w.heap.mem (blockFromPtr ptr) ∨
      (SearchOk w.heap size size ∧ (SearchFails w.heap size ∨ FitsBack w ptr))
  | .kfree ptr => ptr = 0 ∨ FitsBack w ptr
  | .write _ _ _ => True

/-- A call of a caller that keeps to the interface, in a state fit for it. -/
def Guarded (w : World) (op : Op) : Prop := Legal w op ∧ OpOk w op

/-- `memory_init` has room for the first block, or is given address 0 and hands out nothing. -/
def RegionOk (memStart memEnd : Nat) : Prop :=
  alignUp memStart = 0 ∨ alignUp memStart + FREE_BLOCK_SIZE ≤ alignDown memEnd

/-- The heap and the callers agree on the layout. -/
structure Holds (w : World) (l : Layout) : Prop where
  inv : HeapInv w.heap l
  live : w.live = l.held.map Held.allocation

/-! ## Live pointers -/

theorem Holds.exists_held (h : Holds w l) (hp : ∃ a ∈ w.live, a.ptr = p) :
    ∃ pre x post, l.held = pre ++ x :: post ∧ x.addr + HEADER_SIZE = p := by
  obtain ⟨a, ha, rfl⟩ := hp
  rw [h.live] at ha
  obtain ⟨x, hx, rfl⟩ := List.mem_map.mp ha
  obtain ⟨pre, post, he⟩ := List.append_of_mem hx
  exact ⟨pre, x, post, he, rfl⟩

/-- Two places of the list of allocations hold bytes that are apart. -/
theorem HeapInv.held_apart (h : HeapInv s ⟨bs, pre ++ x :: post⟩) (hy : y ∈ pre ++ post) :
    x.addr + (16 + x.size) ≤ y.addr ∨ y.addr + (16 + y.size) ≤ x.addr := by
  have hp : (pre ++ x :: post).Perm (x :: (pre ++ post)) := List.perm_middle
  have h1 : ((x :: (pre ++ post)).map Held.span).Pairwise Span.Apart :=
    (Span.pairwise_perm (hp.map Held.span)).mp (List.pairwise_append.mp h.apart).2.1
  exact Held.apart_iff.mp ((List.pairwise_cons.mp h1).1 _ (List.mem_map_of_mem hy))

theorem HeapInv.held_ne (h : HeapInv s ⟨bs, pre ++ x :: post⟩) (hy : y ∈ pre ++ post) :
    y.addr ≠ x.addr := by
  have h1 := h.held_apart hy
  omega

/-- Giving a pointer back takes its allocation out. -/
theorem Holds.drop (h : Holds w ⟨bs, pre ++ x :: post⟩) :
    w.drop (x.addr + HEADER_SIZE) = (pre ++ post).map Held.allocation := by
  have hne : ∀ y ∈ pre ++ post, decide (y.allocation.ptr ≠ x.addr + HEADER_SIZE) = true :=
    fun y hy => by
      have := h.inv.held_ne hy
      simp [Held.allocation, this]
  have hpre : (pre.map Held.allocation).filter (·.ptr ≠ x.addr + HEADER_SIZE) =
      pre.map Held.allocation := List.filter_eq_self.mpr fun a ha => by
    obtain ⟨y, hy, rfl⟩ := List.mem_map.mp ha
    exact hne y (List.mem_append_left _ hy)
  have hpost : (post.map Held.allocation).filter (·.ptr ≠ x.addr + HEADER_SIZE) =
      post.map Held.allocation := List.filter_eq_self.mpr fun a ha => by
    obtain ⟨y, hy, rfl⟩ := List.mem_map.mp ha
    exact hne y (List.mem_append_right _ hy)
  unfold World.drop
  rw [h.live, List.map_append, List.map_cons, List.filter_append, hpre,
    List.filter_cons_of_neg (by simp [Held.allocation]), hpost, List.map_append]

/-- No allocation is at `NULL`. -/
theorem Holds.drop_null (h : Holds w l) : w.drop 0 = w.live := by
  unfold World.drop
  rw [List.filter_eq_self]
  intro a ha
  rw [h.live] at ha
  obtain ⟨x, -, rfl⟩ := List.mem_map.mp ha
  simp [Held.allocation]

/-- `FitsBack` on the caller's side is `Returns` on the layout. -/
theorem Holds.returns (h : Holds w ⟨bs, pre ++ x :: post⟩)
    (hfit : FitsBack w (x.addr + HEADER_SIZE)) : Returns w.heap bs (pre ++ post) x := by
  have hx : x ∈ pre ++ x :: post := by simp
  have hsub : ∀ y ∈ pre ++ post, y ∈ pre ++ x :: post := fun y hy => by
    simp only [List.mem_append, List.mem_cons] at hy ⊢
    tauto
  have hxh := h.inv.held_header hx
  unfold FitsBack at hfit
  rw [blockFromPtr_add (by omega)] at hfit
  obtain ⟨h1, h2, h3⟩ := hfit
  refine ⟨h1, fun b hb => ?_, fun y hy => ?_⟩
  · have hon := (h.inv.freeList.onChain_iff (x := b.addr)).mpr
      ⟨b, hb, rfl, (h.inv.freeList.seg.blockSize_eq hb).symm⟩
    have hap := h2 b.addr hon
    rw [h.inv.freeList.seg.blockSize_eq hb] at hap
    exact hap
  · have hya : y.allocation ∈ w.live := by
      rw [h.live]
      exact List.mem_map_of_mem (hsub y hy)
    have hyh := h.inv.held_header (hsub y hy)
    have hne : y.allocation.ptr ≠ x.addr + HEADER_SIZE := by
      have := h.inv.held_ne hy
      simp [Held.allocation, this]
    have hap := h3 _ hya hne
    unfold Held.allocation at hap
    rw [blockFromPtr_add (by omega), (h.inv.held y (hsub y hy)).size_eq] at hap
    exact hap

theorem Holds.reallocOk (h : Holds w ⟨bs, pre ++ x :: post⟩)
    (hok : OpOk w (.krealloc (x.addr + HEADER_SIZE) n)) :
    ReallocOk w.heap bs (pre ++ post) x n := by
  have hx : x ∈ pre ++ x :: post := by simp
  have hxh := h.inv.held_header hx
  simp only [OpOk] at hok
  rw [if_neg (by simp)] at hok
  refine ⟨fun hn => ?_, fun hn hlt => ?_⟩
  · rw [if_pos hn] at hok
    exact h.returns hok
  · rw [if_neg hn, blockFromPtr_add (by omega), (h.inv.held x hx).size_eq] at hok
    obtain ⟨h1, h2⟩ := hok.resolve_left (Nat.not_le.mpr hlt)
    exact ⟨h1, h2.imp_right h.returns⟩

/-! ## One call -/

/-- The world after the call holds a layout reached from the one before. -/
def Follows (w : World) (l : Layout) (w' : World) : Prop :=
  ∃ l', Holds w' l' ∧ Layout.Steps l l' ∧ SameRegion w.heap w'.heap

/-- The same with moves. -/
def Moved (w : World) (l : Layout) (w' : World) : Prop :=
  ∃ l', Holds w' l' ∧ Layout.Moves w.heap.heapEnd l l' ∧ SameRegion w.heap w'.heap

theorem Moved.follows (h : Moved w l w') : Follows w l w' := by
  obtain ⟨l', hl', hmoves, hreg⟩ := h
  exact ⟨l', hl', hmoves.steps, hreg⟩

theorem moved_kmalloc (h : Holds w l) (hok : size = 0 ∨ SearchOk w.heap size size)
    (hk : kmalloc fuel w.heap size = some (s', p)) :
    Moved w l ⟨s', w.obtain p size⟩ := by
  rcases kmalloc_moves h.inv hk (Nat.le_refl _) hok with
    ⟨rfl, cs, hg, hmoves⟩ | ⟨cs, x, hg, hmoves, hx, -, -⟩
  · exact ⟨_, ⟨hg.inv, h.live⟩, hmoves, hg.region⟩
  · refine ⟨_, ⟨hg.inv, ?_⟩, hmoves, hg.region⟩
    obtain ⟨rfl, -⟩ := Allocation.mk.inj hx
    unfold World.obtain
    rw [if_neg (by simp), h.live, List.map_cons, hx]

theorem moved_kfree (h : Holds w l) (hp : p = 0 ∨ ∃ a ∈ w.live, a.ptr = p)
    (hok : p = 0 ∨ FitsBack w p) (hk : kfree fuel w.heap p = some s') :
    Moved w l ⟨s', w.drop p⟩ := by
  by_cases h0 : p = 0
  · unfold kfree at hk
    rw [if_pos (.inl h0)] at hk
    cases hk
    rw [h0, h.drop_null]
    exact ⟨l, ⟨h.inv, h.live⟩, .refl, .refl _⟩
  · obtain ⟨pre, x, post, he, rfl⟩ := h.exists_held (hp.resolve_left h0)
    obtain ⟨bs, hs⟩ := l
    simp only at he
    subst he
    obtain ⟨cs, hev, hmoves⟩ := kfree_moves h.inv hk (h.returns (hok.resolve_left h0))
    exact ⟨_, ⟨hev.inv, h.drop⟩, hmoves, hev.region⟩

/-- **A guarded call moves the layout.** -/
theorem step_moved (h : Holds w l) (hg : Guarded w op) (hs : step fuel w op = some w') :
    Moved w l w' := by
  obtain ⟨hleg, hok⟩ := hg
  cases op with
  | kmalloc size =>
    obtain ⟨⟨s', p⟩, hk, rfl⟩ := Option.map_eq_some_iff.mp hs
    exact moved_kmalloc h hok hk
  | kcalloc num size =>
    obtain ⟨⟨s', p⟩, hk, rfl⟩ := Option.map_eq_some_iff.mp hs
    rcases kcalloc_moves h.inv hk hok with ⟨rfl, cs, hev, hmoves⟩ | ⟨cs, x, hev, hmoves, hx⟩
    · exact ⟨_, ⟨hev.inv, h.live⟩, hmoves, hev.region⟩
    · refine ⟨_, ⟨hev.inv, ?_⟩, hmoves, hev.region⟩
      obtain ⟨rfl, -⟩ := Allocation.mk.inj hx
      unfold World.obtain
      rw [if_neg (by simp), h.live, List.map_cons, hx]
  | krealloc ptr size =>
    obtain ⟨⟨s', p⟩, hk, rfl⟩ := Option.map_eq_some_iff.mp hs
    by_cases h0 : ptr = 0
    · subst h0
      simp only [OpOk, if_true] at hok
      simp only [krealloc, if_true] at hk
      have hf := moved_kmalloc h hok hk
      unfold World.obtain at hf
      simp only [ne_eq, not_true_eq_false, false_and, if_false, h.drop_null]
      exact hf
    · obtain ⟨pre, x, post, he, rfl⟩ := h.exists_held (hleg.1.resolve_left h0)
      obtain ⟨bs, hs⟩ := l
      simp only at he
      subst he
      rcases krealloc_moves h.inv hk (h.reallocOk hok) with
        ⟨hn, cs, hev, hmoves⟩ | ⟨hn, rfl, cs, hev, hmoves⟩ | ⟨hn, hp, cs, y, hy, hev, hmoves⟩
      · refine ⟨_, ⟨hev.inv, ?_⟩, hmoves, hev.region⟩
        rw [if_pos ⟨h0, hn⟩]
        exact h.drop
      · refine ⟨_, ⟨hev.inv, ?_⟩, hmoves, hev.region⟩
        rw [if_neg (fun hc => hn hc.2), if_pos rfl]
        exact h.live
      · refine ⟨_, ⟨hev.inv, ?_⟩, hmoves, hev.region⟩
        rw [if_neg (fun hc => hn hc.2), if_neg hp, h.drop, List.map_cons, hy]
  | kfree ptr =>
    obtain ⟨s', hk, rfl⟩ := Option.map_eq_some_iff.mp hs
    exact moved_kfree h hleg hok hk
  | write ptr i v =>
    obtain ⟨a, ha, rfl, hi⟩ := hleg
    rw [h.live] at ha
    obtain ⟨x, hx, rfl⟩ := List.mem_map.mp ha
    cases hs
    have hxb := h.inv.held_bound hx
    have hend := h.inv.heapEnd_lt
    have hreq := (h.inv.held x hx).requested_le
    have hi' : i < x.requested := hi
    have haddr : (x.allocation.ptr + i) % 2 ^ 64 = x.addr + 16 + i :=
      Nat.mod_eq_of_lt (by show x.addr + 16 + i < 2 ^ 64; omega)
    refine ⟨l, ⟨h.inv.payload hx fun t k ht hap => ?_, h.live⟩, .refl, ⟨rfl, rfl, rfl⟩⟩
    rw [haddr]
    exact agreeOn_fill (by omega) ht (by omega)

/-- **A guarded call returns.** -/
theorem step_ends (h : Holds w l) (hg : Guarded w op) (hf : l.free.length + 2 < fuel) :
    ∃ w', step fuel w op = some w' := by
  obtain ⟨hleg, hok⟩ := hg
  have hf1 : l.free.length + 1 < fuel := Nat.lt_of_succ_lt hf
  cases op with
  | kmalloc size =>
    obtain ⟨q, hq⟩ := kmalloc_ends h.inv hok hf1
    exact ⟨_, by rw [step, hq, Option.map_some]⟩
  | kcalloc num size =>
    obtain ⟨q, hq⟩ := kcalloc_ends h.inv hok hf1
    exact ⟨_, by rw [step, hq, Option.map_some]⟩
  | krealloc ptr size =>
    have hq : ∃ q, krealloc fuel w.heap ptr size = some q := by
      by_cases h0 : ptr = 0
      · simp only [OpOk, if_pos h0] at hok
        obtain ⟨q, hq⟩ := kmalloc_ends h.inv hok hf1
        exact ⟨q, by simp [krealloc, h0, hq]⟩
      · obtain ⟨pre, x, post, he, rfl⟩ := h.exists_held (hleg.1.resolve_left h0)
        obtain ⟨bs, hs⟩ := l
        simp only at he
        subst he
        exact krealloc_ends h.inv (h.reallocOk hok) hf
    obtain ⟨q, hq⟩ := hq
    exact ⟨_, by rw [step, hq, Option.map_some]⟩
  | kfree ptr =>
    have hq : ∃ s', kfree fuel w.heap ptr = some s' := by
      by_cases h0 : ptr = 0
      · exact ⟨w.heap, if_pos (.inl h0)⟩
      · obtain ⟨pre, x, post, he, rfl⟩ := h.exists_held (hleg.resolve_left h0)
        obtain ⟨bs, hs⟩ := l
        simp only at he
        subst he
        exact kfree_ends h.inv (h.returns (hok.resolve_left h0)) hf1
    obtain ⟨q, hq⟩ := hq
    exact ⟨_, by rw [step, hq, Option.map_some]⟩
  | write ptr i v => exact ⟨_, rfl⟩

/-! ## Whole runs -/

/-- The layout after `memory_init`: one free block, or nothing if the heap is at `NULL`. -/
def Layout.init (memStart memEnd : Nat) : Layout :=
  ⟨if alignUp memStart = 0 then []
    else [⟨alignUp memStart, alignDown memEnd - alignUp memStart - FREE_BLOCK_SIZE⟩], []⟩

theorem init_mem (m : Mem) (memStart memEnd : Nat) : (World.init m memStart memEnd).heap.mem =
    setBlockMagic (setNext (setBlockSize m (alignUp memStart)
      (sub64 (sub64 (alignDown memEnd) (alignUp memStart)) FREE_BLOCK_SIZE)) (alignUp memStart) 0)
      (alignUp memStart) BLOCK_MAGIC := rfl

/-- The first block as `memory_init` writes it, wherever the heap starts. -/
theorem init_freeList (m : Mem) {memStart : Nat} (memEnd : Nat) (h0 : alignUp memStart ≠ 0) :
    FreeList (World.init m memStart memEnd).heap.mem (alignUp memStart) [⟨alignUp memStart,
      sub64 (sub64 (alignDown memEnd) (alignUp memStart)) FREE_BLOCK_SIZE⟩] := by
  have h8 := alignUp_mod memStart
  have hlt := alignUp_lt memStart
  have hs : sub64 (sub64 (alignDown memEnd) (alignUp memStart)) FREE_BLOCK_SIZE < 2 ^ 64 :=
    Nat.mod_lt _ (by decide)
  -- the three fields lie on different 8-byte words, also where the last ones wrap around
  rw [init_mem]
  refine freeList_cons.mpr ⟨rfl, h0, ?_, freeList_nil.mpr ?_⟩
  · dsimp only
    unfold blockSize setBlockMagic
    rw [load_store_disjoint (by omega) (by omega) (by omega)]
    unfold setNext
    rw [load_store_disjoint (by omega) (by omega) (by omega)]
    exact load_store_same_of_lt (by omega) (by omega)
  · dsimp only
    unfold next setBlockMagic
    rw [load_store_disjoint (by omega) (by omega) (by omega)]
    exact load_store_same_of_lt (by omega) (by decide)

theorem init_holds {memStart memEnd : Nat} (he : memEnd < 2 ^ 64)
    (hr : RegionOk memStart memEnd) :
    Holds (World.init m memStart memEnd) (Layout.init memStart memEnd) := by
  have hend : alignDown memEnd < 2 ^ 64 := Nat.lt_of_le_of_lt (alignDown_le _) he
  unfold Layout.init
  by_cases h0 : alignUp memStart = 0
  · rw [if_pos h0]
    refine ⟨⟨rfl, hend, freeList_nil.mpr h0, by simp, by simp [Layout.spans],
      by simp [Layout.spans], fun hn => absurd h0 hn⟩, rfl⟩
  · rw [if_neg h0]
    have hroom : alignUp memStart + 24 ≤ alignDown memEnd := hr.resolve_left h0
    have hsize : sub64 (sub64 (alignDown memEnd) (alignUp memStart)) 24 =
        alignDown memEnd - alignUp memStart - 24 := sub64_sub64 hroom hend
    have htotal : sub64 (alignDown memEnd) (alignUp memStart) =
        alignDown memEnd - alignUp memStart := sub64_of_le (by omega) hend
    have hl := init_freeList m memEnd h0
    rw [hsize] at hl
    refine ⟨⟨rfl, hend, hl, by simp, fun r hr => ?_, by simp [Layout.spans],
      fun _ => ⟨by simp [Layout.spans], ?_⟩⟩, rfl⟩
    · obtain rfl : r = _ := by simpa [Layout.spans] using hr
      refine ⟨Nat.le_refl _, ?_, alignUp_mod _⟩
      show alignUp memStart + (24 + (alignDown memEnd - alignUp memStart - 24)) ≤ alignDown memEnd
      omega
    · show 0 + sub64 (sub64 (alignDown memEnd) (alignUp memStart)) 24 + 24 * 1 ≡
        sub64 (alignDown memEnd) (alignUp memStart) [MOD 2 ^ 64]
      rw [hsize, htotal]
      have : 0 + (alignDown memEnd - alignUp memStart - 24) + 24 * 1 =
          alignDown memEnd - alignUp memStart := by omega
      rw [this]

/-- **A guarded run is a run of layouts.** -/
theorem run_moved (h : Holds w l) (hrun : Reaches Step Guarded w w') : Moved w l w' := by
  refine hrun.invariant (I := Moved w l) ⟨l, h, .refl, .refl _⟩ ?_
  rintro w1 op w2 ⟨l1, h1, hs1, hr1⟩ hg ⟨fuel, hs⟩
  obtain ⟨l2, h2, hs2, hr2⟩ := step_moved h1 hg hs
  exact ⟨l2, h2, hs1.trans (hr1.heapEnd ▸ hs2), hr1.trans hr2⟩

theorem run_holds (h : Holds w l) (hrun : Reaches Step Guarded w w') : Follows w l w' :=
  (run_moved h hrun).follows

/-! ## Checking the guard -/

/-- The blocks met by following `next`, if the list ends within `fuel` blocks. -/
def walk (m : Mem) : Nat → Nat → Option (List Block)
  | 0, _ => none
  | fuel + 1, p =>
    if p = 0 then some [] else (walk m fuel (next m p)).map (⟨p, blockSize m p⟩ :: ·)

theorem walk_spec (h : walk m fuel p = some bs) : FreeList m p bs := by
  induction fuel generalizing p bs with
  | zero => cases h
  | succ fuel ih =>
    rw [walk] at h
    split at h
    · cases h
      exact freeList_nil.mpr ‹_›
    · rename_i h0
      obtain ⟨cs, hc, rfl⟩ := Option.map_eq_some_iff.mp h
      exact freeList_cons.mpr ⟨rfl, h0, rfl, ih hc⟩

instance : Decidable (PicksWell requested size bs) := inferInstanceAs (Decidable (∀ _ ∈ _, _))

instance : Decidable (NoFit size bs) := inferInstanceAs (Decidable (∀ _ ∈ _, _))

instance (s : State) (r : Span) : Decidable (InHeap s r) := inferInstanceAs (Decidable (_ ∧ _))

/-- `P` holds of the free list. -/
def onFreeList (fuel : Nat) (s : State) (P : List Block → Bool) : Bool :=
  match walk s.mem fuel s.freeList with
  | some bs => P bs
  | none => false

theorem onFreeList_spec {P : List Block → Bool} (h : onFreeList fuel s P = true)
    (hl : FreeList s.mem s.freeList bs) : P bs = true := by
  unfold onFreeList at h
  split at h
  · rename_i cs hc
    rw [hl.unique (walk_spec hc)]
    exact h
  · cases h

def searchOk (fuel : Nat) (s : State) (requested n : Nat) : Bool :=
  onFreeList fuel s fun bs => decide (PicksWell requested (alignUp n) bs ∧
    (NoFit (alignUp n) bs → PicksWell requested (alignUp n) (merge bs)))

def fitsBack (fuel : Nat) (w : World) (ptr : Nat) : Bool :=
  let r := freedSpan w.heap.mem (blockFromPtr ptr)
  decide (InHeap w.heap r) &&
    onFreeList fuel w.heap (fun bs => decide (∀ b ∈ bs, r.Apart b.span)) &&
    decide (∀ a ∈ w.live, a.ptr ≠ ptr → r.Apart
      ⟨blockFromPtr a.ptr, HEADER_SIZE + headerSize w.heap.mem (blockFromPtr a.ptr)⟩)

theorem searchOk_spec (h : searchOk fuel s requested n = true) : SearchOk s requested n :=
  fun _ hl => of_decide_eq_true (onFreeList_spec h hl)

/-- The free list `fitsBack` has walked exists. -/
theorem freeList_of_onFreeList {P : List Block → Bool} (h : onFreeList fuel s P = true) :
    ∃ bs, FreeList s.mem s.freeList bs := by
  unfold onFreeList at h
  split at h
  · rename_i cs hc
    exact ⟨cs, walk_spec hc⟩
  · cases h

theorem fitsBack_spec (h : fitsBack fuel w p = true) : FitsBack w p := by
  unfold fitsBack at h
  simp only [Bool.and_eq_true] at h
  obtain ⟨⟨h1, h2⟩, h3⟩ := h
  obtain ⟨bs, hl⟩ := freeList_of_onFreeList h2
  refine ⟨of_decide_eq_true h1, fun b hb => ?_, of_decide_eq_true h3⟩
  obtain ⟨d, hd, rfl, hsz⟩ := hl.onChain_iff.mp hb
  rw [← hsz]
  exact of_decide_eq_true (onFreeList_spec h2 hl) d hd

/-- A check of the guard for `kmalloc`, `kfree` and stores. -/
def guarded (fuel : Nat) (w : World) (op : Op) : Bool :=
  decide (Legal w op) && match op with
    | .kmalloc size => searchOk fuel w.heap size size
    | .kfree ptr => fitsBack fuel w ptr
    | .write _ _ _ => true
    | _ => false

theorem guarded_spec (h : guarded fuel w op = true) : Guarded w op := by
  unfold guarded at h
  rw [Bool.and_eq_true] at h
  refine ⟨of_decide_eq_true h.1, ?_⟩
  cases op with
  | kmalloc size => exact .inr (searchOk_spec h.2)
  | kfree ptr => exact .inr (fitsBack_spec h.2)
  | write ptr i v => trivial
  | kcalloc num size => cases h.2
  | krealloc ptr size => cases h.2

/-- A run of calls, as far as the guard is checked to hold. -/
theorem guarded_run {ops : List Op}
    (h : exec (step fuel) (guarded fuel) w ops = some w') : Reaches Step Guarded w w' :=
  reaches_of_exec (fun _ _ => guarded_spec) (fun _ _ _ hs => ⟨fuel, hs⟩) h

/-- A run of calls of callers that keep to the interface. -/
theorem legal_run {ops : List Op}
    (h : exec (step fuel) (fun w op => decide (Legal w op)) w ops = some w') :
    Reaches Step Legal w w' :=
  reaches_of_exec (fun _ _ => of_decide_eq_true) (fun _ _ _ hs => ⟨fuel, hs⟩) h

/-! ## Live payloads -/

/-- The bytes a caller may use. -/
def Allocation.payload (a : Allocation) : Set Nat := Set.Ico a.ptr (a.ptr + a.requested)

/-- Live payloads are aligned, inside the heap, pairwise disjoint and off every free block. -/
structure PayloadsSafe (w : World) : Prop where
  aligned : ∀ a ∈ w.live, a.ptr % 8 = 0
  inside : ∀ a ∈ w.live, w.heap.heapStart ≤ a.ptr ∧ a.ptr + a.requested ≤ w.heap.heapEnd
  disjoint : w.live.Pairwise fun a a' => Disjoint a.payload a'.payload
  offFree : ∀ a ∈ w.live, ∀ b, OnChain (next w.heap.mem) 0 w.heap.freeList b →
    Disjoint a.payload (Set.Ico b (b + FREE_BLOCK_SIZE + blockSize w.heap.mem b))

/-- A payload lies in the bytes of its allocation. -/
theorem HeapInv.payload_subset (h : HeapInv s l) (hx : x ∈ l.held) :
    x.allocation.payload ⊆ Set.Ico x.span.lo x.span.hi := by
  have hreq := (h.held x hx).requested_le
  refine Set.Ico_subset_Ico ?_ ?_
  · show x.addr ≤ x.addr + 16
    omega
  · show x.addr + 16 + x.requested ≤ x.addr + (16 + x.size)
    omega

theorem Holds.payloadsSafe (h : Holds w l) : PayloadsSafe w := by
  have hsub := fun {x : Held} (hx : x ∈ l.held) => h.inv.payload_subset hx
  refine ⟨fun a ha => ?_, fun a ha => ?_, ?_, fun a ha b hb => ?_⟩
  · rw [h.live] at ha
    obtain ⟨x, hx, rfl⟩ := List.mem_map.mp ha
    have h8 : x.addr % 8 = 0 := (h.inv.held_inHeap hx).2.2
    show (x.addr + 16) % 8 = 0
    omega
  · rw [h.live] at ha
    obtain ⟨x, hx, rfl⟩ := List.mem_map.mp ha
    have h1 : w.heap.heapStart ≤ x.addr := (h.inv.held_inHeap hx).1
    have h2 := h.inv.held_bound hx
    have hreq := (h.inv.held x hx).requested_le
    show w.heap.heapStart ≤ x.addr + 16 ∧ x.addr + 16 + x.requested ≤ w.heap.heapEnd
    omega
  · rw [h.live, List.pairwise_map]
    have hpw := List.pairwise_map.mp (List.pairwise_append.mp h.inv.apart).2.1
    refine hpw.imp_of_mem fun hx hy hap => ?_
    exact hap.disjoint.mono (hsub hx) (hsub hy)
  · rw [h.live] at ha
    obtain ⟨x, hx, rfl⟩ := List.mem_map.mp ha
    obtain ⟨d, hd, rfl, hsz⟩ := h.inv.freeList.onChain_iff.mp hb
    have hap : Span.Apart x.span d.span := (h.inv.apart_block_held hd hx).symm
    rw [← hsz, Nat.add_assoc]
    exact hap.disjoint.mono_left (hsub hx)

/-- **In a guarded run live payloads are safe in every state.** -/
theorem payloads_safe {memStart memEnd : Nat} (he : memEnd < 2 ^ 64)
    (hr : RegionOk memStart memEnd)
    (hrun : Reaches Step Guarded (World.init m memStart memEnd) w) : PayloadsSafe w := by
  obtain ⟨l, h, -, -⟩ := run_holds (init_holds he hr) hrun
  exact h.payloadsSafe

theorem payloads_safe_run : ∃ w, w.live.length = 2 ∧
    Reaches Step Guarded (World.init (fun _ => 0) 4096 8192) w ∧ PayloadsSafe w := by
  have hx : (exec (step 8) (guarded 8) (World.init (fun _ => 0) 4096 8192)
      [.kmalloc 176, .kmalloc 100, .kfree 4112, .kmalloc 120]).map (fun w => w.live.length) =
      some 2 := by decide +kernel
  obtain ⟨w, hw, hl⟩ := Option.map_eq_some_iff.mp hx
  have hrun := guarded_run hw
  exact ⟨w, hl, hrun, payloads_safe (by decide) (.inr (by decide)) hrun⟩

/-- Two allocations of 8 bytes, the first given back: its `size` field then says 171, and the free
block covers the second one. -/
theorem payloads_not_safe : ¬ ∀ m memStart memEnd w, memStart ≤ memEnd → memEnd < 2 ^ 64 →
    Reaches Step Legal (World.init m memStart memEnd) w → PayloadsSafe w := by
  intro hall
  have hx : (exec (step 8) (fun w op => decide (Legal w op))
      (World.init (fun _ => 0) 4096 8192) [.kmalloc 8, .kmalloc 8, .kfree 4112]).map
      (fun w => (w.heap.freeList, blockSize w.heap.mem 4096, w.live)) =
      some (4096, 171, [⟨4144, 8⟩]) := by decide +kernel
  obtain ⟨w, hw, hobs⟩ := Option.map_eq_some_iff.mp hx
  simp only [Prod.mk.injEq] at hobs
  obtain ⟨hf, hb, hl⟩ := hobs
  have hsafe := hall _ 4096 8192 w (by decide) (by decide) (legal_run hw)
  have hon : OnChain (next w.heap.mem) 0 w.heap.freeList 4096 := by
    rw [hf]
    exact .head (by decide)
  have hdis := hsafe.offFree ⟨4144, 8⟩ (by simp [hl]) 4096 hon
  rw [hb, Set.disjoint_left] at hdis
  exact hdis (a := 4144) (Set.mem_Ico.mpr (by decide)) (Set.mem_Ico.mpr (by decide))

/-! ## Loops over the free list -/

/-- The free list is finite and visits no block twice, and every loop over it ends. -/
structure LoopsEnd (s : State) : Prop where
  finite : ∃ l, IsChain (next s.mem) 0 s.freeList l ∧ l.Nodup
  findBestFit : ∃ N, ∀ fuel, N < fuel → ∀ size, (findBestFit fuel s size).isSome
  coalesceBlocks : ∃ N, ∀ fuel, N < fuel → (coalesceBlocks fuel s).isSome
  removeFromFreeList : ∃ N, ∀ fuel, N < fuel → ∀ block, (removeFromFreeList fuel s block).isSome
  memoryIntegrityCheck : ∃ N, ∀ fuel, N < fuel → (memoryIntegrityCheck fuel s).isSome

theorem Holds.loopsEnd (h : Holds w l) : LoopsEnd w.heap := by
  have hl := h.inv.freeList
  refine ⟨⟨_, hl.isChain, hl.isChain.nodup⟩, ⟨l.free.length, fun fuel hf size => ?_⟩,
    ⟨l.free.length, fun fuel hf => ?_⟩, ⟨l.free.length, fun fuel hf block => ?_⟩,
    ⟨l.free.length, fun fuel hf => ?_⟩⟩
  · exact Option.isSome_iff_exists.mpr (findBestFit_ends hl hf size)
  · exact Option.isSome_iff_exists.mpr (coalesceLoop_ends hl h.inv.laid hf)
  · exact Option.isSome_iff_exists.mpr (removeFromFreeList_ends hl hf)
  · obtain ⟨r, hr⟩ := integrityLoop_ends hl hf 0 0
    unfold Memory.memoryIntegrityCheck
    rw [hr]
    rfl

/-- **In a guarded run the free list is finite in every state, the loops over it end, and the next
guarded call returns.** -/
theorem loops_end {memStart memEnd : Nat} (he : memEnd < 2 ^ 64) (hr : RegionOk memStart memEnd)
    (hrun : Reaches Step Guarded (World.init m memStart memEnd) w) :
    LoopsEnd w.heap ∧ ∀ op, Guarded w op → ∃ w', Step w op w' := by
  obtain ⟨l, h, -, -⟩ := run_holds (init_holds he hr) hrun
  refine ⟨h.loopsEnd, fun op hg => ?_⟩
  obtain ⟨w', hs⟩ := step_ends h hg (Nat.lt_succ_self _)
  exact ⟨w', _, hs⟩

theorem loops_end_run : ∃ w, w.heap.freeCount = 2 ∧
    Reaches Step Guarded (World.init (fun _ => 0) 4096 8192) w ∧ LoopsEnd w.heap := by
  have hx : (exec (step 8) (guarded 8) (World.init (fun _ => 0) 4096 8192)
      [.kmalloc 176, .kmalloc 300, .kfree 4112, .kfree 4312]).map (fun w => w.heap.freeCount) =
      some 2 := by decide +kernel
  obtain ⟨w, hw, hc⟩ := Option.map_eq_some_iff.mp hx
  have hrun := guarded_run hw
  exact ⟨w, hc, hrun, (loops_end (by decide) (.inr (by decide)) hrun).1⟩

/-- A block whose successor is itself is on no finite list. -/
theorem not_isChain_of_self (hp : p ≠ 0) (hn : next m p = p) (q : List Nat) :
    ¬ IsChain (next m) 0 p q := by
  induction q with
  | nil => exact fun h => hp (isChain_nil.mp h)
  | cons x q ih =>
    intro h
    obtain ⟨rfl, -, ht⟩ := isChain_cons.mp h
    rw [hn] at ht
    exact ih ht

/-- 112 bytes are handed out, given back as a block of 171 and handed out again: the block cut off
lies where the first free block already is, and becomes its own successor. -/
theorem loops_not_end : ¬ ∀ m memStart memEnd w, memStart ≤ memEnd → memEnd < 2 ^ 64 →
    Reaches Step Legal (World.init m memStart memEnd) w → LoopsEnd w.heap := by
  intro hall
  have hx : (exec (step 8) (fun w op => decide (Legal w op))
      (World.init (fun _ => 0) 4096 8192) [.kmalloc 112, .kfree 4112, .kmalloc 112]).map
      (fun w => (w.heap.freeList, next w.heap.mem 4232)) = some (4232, 4232) := by decide +kernel
  obtain ⟨w, hw, hobs⟩ := Option.map_eq_some_iff.mp hx
  simp only [Prod.mk.injEq] at hobs
  obtain ⟨hf, hn⟩ := hobs
  obtain ⟨q, hq, -⟩ := (hall _ 4096 8192 w (by decide) (by decide) (legal_run hw)).finite
  rw [hf] at hq
  exact not_isChain_of_self (by decide) hn q hq

end OSCompas.Memory
