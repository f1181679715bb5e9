import OSCompas.Memory.Safety

/-!
# Frees that are not to be

What `kfree` does with `NULL`, with a pointer off the heap and with a pointer that has been given
back before.

* `Rejects` — the tests of `kfree` that end the call, and `kfree_eq_self_iff`: the call changes
  nothing exactly when one of them does;
* `Layout.Regular` — free blocks end at the end of the heap or off every multiple of 8, so that
  merging never happens;
* `Layout.Remembers` — an address that was handed out is an allocation or a block as `kfree` left
  it.

Principal results: `Layout.Regular.merge_eq` and `invalid_free_rejected`.
-/

set_option autoImplicit false

namespace OSCompas.Memory

open ByteMemory Chain Runs

variable {m : Mem} {a e n p fuel memStart memEnd : Nat} {s s' : State} {w w₀ w' : World} {op : Op}
variable {bs : List Block} {b c d : Block} {l l' : Layout} {x : Held}

/-! ## The tests of `kfree` -/

/-- `kfree` returns before it changes anything. -/
def Rejects (s : State) (ptr : Nat) : Prop :=
  ptr = 0 ∨ s.initialized = false ∨ blockFromPtr ptr < s.heapStart ∨
    s.heapEnd ≤ blockFromPtr ptr ∨ headerMagic s.mem (blockFromPtr ptr) ≠ BLOCK_MAGIC ∨
    headerUsed s.mem (blockFromPtr ptr) = 0

instance (s : State) (ptr : Nat) : Decidable (Rejects s ptr) := inferInstanceAs (Decidable (_ ∨ _))

theorem kfree_of_rejects (h : Rejects s p) (fuel : Nat) : kfree fuel s p = some s := by
  unfold kfree
  by_cases h₁ : p = 0 ∨ s.initialized = false
  · rw [if_pos h₁]
  · rw [if_neg h₁]
    dsimp only
    by_cases h₂ : blockFromPtr p < s.heapStart ∨ s.heapEnd ≤ blockFromPtr p
    · rw [if_pos h₂]
    · rw [if_neg h₂]
      by_cases h₃ : headerMagic s.mem (blockFromPtr p) ≠ BLOCK_MAGIC
      · rw [if_pos h₃]
      · have h₄ : headerUsed s.mem (blockFromPtr p) = 0 := by
          unfold Rejects at h
          tauto
        rw [if_neg h₃, if_pos h₄]

theorem coalesceLoop_freeCount (h : coalesceLoop fuel s p = some s') :
    s'.freeCount = s.freeCount := by
  induction fuel generalizing s p with
  | zero => cases h
  | succ fuel ih =>
    rw [coalesceLoop] at h
    split at h
    · cases h
      rfl
    · dsimp only at h
      split at h
      · have hrest := ih h
        exact hrest
      · exact ih h

/-- A free that passes the tests is counted. -/
theorem kfree_freeCount (h : ¬ Rejects s p) (hk : kfree fuel s p = some s') :
    s'.freeCount = (s.freeCount + 1) % 2 ^ 64 := by
  simp only [Rejects, not_or] at h
  obtain ⟨h₁, h₂, h₃, h₄, h₅, h₆⟩ := h
  have hfirst : ¬ (p = 0 ∨ s.initialized = false) := not_or.mpr ⟨h₁, h₂⟩
  have hinside : ¬ (blockFromPtr p < s.heapStart ∨ s.heapEnd ≤ blockFromPtr p) :=
    not_or.mpr ⟨h₃, h₄⟩
  unfold kfree at hk
  rw [if_neg hfirst] at hk
  dsimp only at hk
  rw [if_neg hinside, if_neg h₅, if_neg h₆] at hk
  unfold coalesceBlocks addToFreeList at hk
  exact coalesceLoop_freeCount hk

/-- **A call changes nothing exactly when a test ends it.** -/
theorem kfree_eq_self_iff : kfree fuel s p = some s ↔ Rejects s p := by
  constructor
  · intro hk
    by_contra h
    have hcount := kfree_freeCount h hk
    have hlt : (s.freeCount + 1) % 2 ^ 64 < 2 ^ 64 := Nat.mod_lt _ (by decide)
    omega
  · intro h
    exact kfree_of_rejects h fuel

/-! ## No merging -/

/-- Addresses are multiples of 8, and free blocks end at the end `e` of the heap or off every
multiple of 8. -/
structure Layout.Regular (e : Nat) (l : Layout) : Prop where
  free : ∀ b ∈ l.free, b.addr % 8 = 0 ∧ b.addr + (24 + b.size) ≤ e ∧
    (b.size % 8 = 3 ∨ b.addr + (24 + b.size) = e)
  held : ∀ x ∈ l.held, x.addr % 8 = 0

theorem mergeFrom_eq (h : ∀ b ∈ c :: bs, b.addr % 8 = 0 ∧ b.addr + (24 + b.size) ≤ e ∧
    (b.size % 8 = 3 ∨ b.addr + (24 + b.size) = e)) : mergeFrom c bs = c :: bs := by
  induction bs generalizing c with
  | nil => rfl
  | cons b bs ih =>
    have hc := h c List.mem_cons_self
    have hb := h b (List.mem_cons_of_mem _ List.mem_cons_self)
    have hapart : c.addr + 24 + c.size ≠ b.addr := by omega
    rw [mergeFrom, if_neg hapart, ih fun d hd => h d (List.mem_cons_of_mem _ hd)]

/-- **Merging finds nothing to merge.** -/
theorem Layout.Regular.merge_eq (h : l.Regular e) : merge l.free = l.free := by
  have hfree := h.free
  revert hfree
  cases l.free with
  | nil => exact fun _ => rfl
  | cons c bs => exact mergeFrom_eq

theorem Layout.Move.regular (hm : Layout.Move e l l') (h : l.Regular e) : l'.Regular e := by
  cases hm with
  | merge =>
    rw [h.merge_eq]
    exact h
  | take hfit hmod =>
    rename_i pre post c hs size requested
    obtain ⟨hfree, hheld⟩ := h
    have hc := hfree c (by simp)
    refine ⟨fun d hd => ?_, fun y hy => ?_⟩
    · simp only [List.mem_append] at hd
      rcases hd with hd | hd | hd
      · exact hfree d (by simp [hd])
      · unfold cutOff at hd
        split at hd
        · cases hd
        · obtain rfl := List.mem_singleton.mp hd
          dsimp only
          omega
      · exact hfree d (by simp [hd])
    · rcases List.mem_cons.mp hy with rfl | hy
      · exact hc.1
      · exact hheld y hy
  | release hsize hend =>
    rename_i bs pre post x size
    obtain ⟨hfree, hheld⟩ := h
    refine ⟨fun d hd => ?_, fun y hy => hheld y ?_⟩
    · rcases List.mem_cons.mp hd with rfl | hd
      · exact ⟨hheld x (by simp), hend, .inl (by dsimp only; omega)⟩
      · exact hfree d hd
    · simp only [List.mem_append, List.mem_cons] at hy ⊢
      tauto
  | resize =>
    rename_i bs pre post x requested hle
    obtain ⟨hfree, hheld⟩ := h
    refine ⟨hfree, fun y hy => ?_⟩
    rcases List.mem_cons.mp hy with rfl | hy
    · exact hheld x (by simp)
    · apply hheld y
      simp only [List.mem_append, List.mem_cons] at hy ⊢
      tauto

theorem Layout.Moves.regular (hm : Layout.Moves e l l') (h : l.Regular e) : l'.Regular e := by
  induction hm with
  | refl => exact h
  | tail _ hm ih => exact hm.regular ih

theorem init_regular (hr : RegionOk memStart memEnd) :
    (Layout.init memStart memEnd).Regular (alignDown memEnd) := by
  have hmod := alignUp_mod memStart
  unfold Layout.init
  refine ⟨fun b hb => ?_, by simp⟩
  by_cases h0 : alignUp memStart = 0
  · simp [h0] at hb
  · have hroom : alignUp memStart + 24 ≤ alignDown memEnd := hr.resolve_left h0
    rw [if_neg h0] at hb
    obtain rfl := List.mem_singleton.mp hb
    have h24 : FREE_BLOCK_SIZE = 24 := rfl
    dsimp only
    omega

/-! ## What becomes of an address -/

/-- The address is an allocation, or a free block with the size that `kfree` left. -/
def Layout.Remembers (l : Layout) (a : Nat) : Prop :=
  (∃ x ∈ l.held, x.addr = a) ∨ ∃ b ∈ l.free, b.addr = a ∧ b.size % 65536 = 0xAB

/-- **An address that was handed out stays known.** -/
theorem Layout.Move.remembers (hm : Layout.Move e l l') (hreg : l.Regular e)
    (h : l.Remembers a) : l'.Remembers a := by
  cases hm with
  | merge =>
    unfold Layout.Remembers
    dsimp only
    rw [hreg.merge_eq]
    exact h
  | take hfit hmod =>
    rename_i pre post c hs size requested
    rcases h with ⟨y, hy, rfl⟩ | ⟨b, hb, rfl, hsize⟩
    · exact .inl ⟨y, List.mem_cons_of_mem _ hy, rfl⟩
    · simp only [List.mem_append, List.mem_cons] at hb
      rcases hb with hb | rfl | hb
      · exact .inr ⟨b, by simp [hb], rfl, hsize⟩
      · exact .inl ⟨_, List.mem_cons_self, rfl⟩
      · exact .inr ⟨b, by simp [hb], rfl, hsize⟩
  | release hsize hend =>
    rename_i bs pre post x size
    rcases h with ⟨y, hy, rfl⟩ | ⟨b, hb, rfl, hlow⟩
    · simp only [List.mem_append, List.mem_cons] at hy
      rcases hy with hy | rfl | hy
      · exact .inl ⟨y, by simp [hy], rfl⟩
      · exact .inr ⟨_, List.mem_cons_self, rfl, hsize⟩
      · exact .inl ⟨y, by simp [hy], rfl⟩
    · exact .inr ⟨b, List.mem_cons_of_mem _ hb, rfl, hlow⟩
  | resize =>
    rename_i bs pre post x requested hle
    rcases h with ⟨y, hy, rfl⟩ | hb
    · simp only [List.mem_append, List.mem_cons] at hy
      rcases hy with hy | rfl | hy
      · exact .inl ⟨y, by simp [hy], rfl⟩
      · exact .inl ⟨_, List.mem_cons_self, rfl⟩
      · exact .inl ⟨y, by simp [hy], rfl⟩
    · exact .inr hb

theorem Layout.Moves.remembers (hm : Layout.Moves e l l') (hreg : l.Regular e)
    (h : l.Remembers a) : l'.Remembers a := by
  suffices l'.Regular e ∧ l'.Remembers a from this.2
  induction hm with
  | refl => exact ⟨hreg, h⟩
  | tail _ hm ih => exact ⟨hm.regular ih.1, hm.remembers ih.1 ih.2⟩

/-- The `used` byte is the second byte of the `size` of a free block. -/
theorem headerUsed_of_blockSize (ha : a + 24 ≤ 2 ^ 64) (h : blockSize m a % 65536 = 0xAB) :
    headerUsed m a = 0 := by
  have h8 : (a + 8) % 2 ^ 64 = a + 8 := Nat.mod_eq_of_lt (by omega)
  have h9 : (a + 9) % 2 ^ 64 = a + 9 := Nat.mod_eq_of_lt (by omega)
  have hfirst : load (2 ^ 64) m (a + 8) 8 = load (2 ^ 64) m (a + 8) 1 +
      256 * load (2 ^ 64) m (a + 9) 7 := load_add (2 ^ 64) m (a + 8) 1 7
  have hsecond : load (2 ^ 64) m (a + 9) 7 = load (2 ^ 64) m (a + 9) 1 +
      256 * load (2 ^ 64) m (a + 10) 6 := load_add (2 ^ 64) m (a + 9) 1 6
  have hlow := load_lt (2 ^ 64) m (a + 8) 1
  have hused := load_lt (2 ^ 64) m (a + 9) 1
  unfold blockSize at h
  unfold headerUsed
  rw [h8] at h
  rw [h9]
  omega

/-! ## Runs -/

/-- A pointer that is not to be freed: `NULL`, one with its header off the heap, or one that was
handed out and is not held any more. -/
def InvalidFree (w₀ w : World) (ptr : Nat) : Prop :=
  ptr = 0 ∨ blockFromPtr ptr < w.heap.heapStart ∨ w.heap.heapEnd ≤ blockFromPtr ptr ∨
    ((∃ a ∈ w₀.live, a.ptr = ptr) ∧ ∀ a ∈ w.live, a.ptr ≠ ptr)

/-- A pointer given back is a free block with the size that `kfree` left. -/
theorem Holds.rejects (h : Holds w l) (hkeeps : l.Remembers (blockFromPtr p))
    (hp : blockFromPtr p + HEADER_SIZE = p) (hlive : ∀ a ∈ w.live, a.ptr ≠ p) :
    Rejects w.heap p := by
  rcases hkeeps with ⟨x, hx, hxa⟩ | ⟨b, hb, hba, hsize⟩
  · have hmem : x.allocation ∈ w.live := by
      rw [h.live]
      exact List.mem_map_of_mem hx
    refine absurd ?_ (hlive x.allocation hmem)
    show x.addr + HEADER_SIZE = p
    rw [hxa, hp]
  · have hbound := h.inv.laid.bound b hb
    have hread := h.inv.freeList.seg.blockSize_eq hb
    have hused : headerUsed w.heap.mem b.addr = 0 :=
      headerUsed_of_blockSize (by omega) (by rw [hread]; exact hsize)
    rw [hba] at hused
    exact .inr (.inr (.inr (.inr (.inr hused))))

/-- **In every guarded run an invalid free changes nothing**, whatever became of the block since. -/
theorem invalid_free_rejected (he : memEnd < 2 ^ 64) (hr : RegionOk memStart memEnd)
    (hrun₀ : Reaches Step Guarded (World.init m memStart memEnd) w₀)
    (hrun : Reaches Step Guarded w₀ w) (hp : InvalidFree w₀ w p) :
    ∀ fuel, kfree fuel w.heap p = some w.heap := by
  intro fuel
  apply kfree_of_rejects
  rcases hp with hp | hp | hp | ⟨⟨a, ha, rfl⟩, hgone⟩
  · exact .inl hp
  · exact .inr (.inr (.inl hp))
  · exact .inr (.inr (.inr (.inl hp)))
  · obtain ⟨l₀, h₀, hmoves₀, hreg₀⟩ := run_moved (init_holds he hr) hrun₀
    obtain ⟨l, h, hmoves, -⟩ := run_moved h₀ hrun
    have hregular : l₀.Regular w₀.heap.heapEnd := by
      rw [hreg₀.heapEnd]
      exact hmoves₀.regular (init_regular hr)
    rw [h₀.live] at ha
    obtain ⟨x, hx, rfl⟩ := List.mem_map.mp ha
    have hblock : blockFromPtr x.allocation.ptr = x.addr := by
      have h24 := h₀.inv.held_header hx
      exact blockFromPtr_add (by omega)
    have hknown := hmoves.remembers hregular (.inl ⟨x, hx, hblock.symm⟩)
    exact h.rejects hknown (by rw [hblock]; rfl) hgone

/-- The first of two allocations is given back, and a third one is made elsewhere. -/
theorem invalid_free_rejected_run :
    ∃ w₀ w, Reaches Step Guarded (World.init (fun _ => 0) 4096 8192) w₀ ∧
      Reaches Step Guarded w₀ w ∧ InvalidFree w₀ w 4112 ∧ w.live.length = 2 ∧
    kfree 8 w.heap 4112 = some w.heap := by
  have hx : (exec (step 8) (guarded 8) (World.init (fun _ => 0) 4096 8192)
      [.kmalloc 176, .kmalloc 300]).bind (fun w₀ =>
        (exec (step 8) (guarded 8) w₀ [.kfree 4112, .kmalloc 600]).map fun w =>
          (w₀.live, w.live)) = some ([⟨4312, 300⟩, ⟨4112, 176⟩], [⟨4640, 600⟩, ⟨4312, 300⟩]) := by
    decide +kernel
  obtain ⟨w₀, hw₀, hx⟩ := Option.bind_eq_some_iff.mp hx
  obtain ⟨w, hw, hobs⟩ := Option.map_eq_some_iff.mp hx
  obtain ⟨hl₀, hl⟩ := Prod.mk.inj hobs
  have hrun₀ := guarded_run hw₀
  have hrun := guarded_run hw
  have hp : InvalidFree w₀ w 4112 := .inr (.inr (.inr ⟨by simp [hl₀], by simp [hl]⟩))
  exact ⟨w₀, w, hrun₀, hrun, hp, by rw [hl]; rfl,
    invalid_free_rejected (by decide) (.inr (by decide)) hrun₀ hrun hp 8⟩

/-- Two allocations of 8 bytes are given back, and 100 bytes handed out at the first one cover the
header of the second; two bytes stored there make its next free pass the tests. -/
theorem invalid_free_accepted : ¬ ∀ m memStart memEnd w₀ w p, memStart ≤ memEnd →
    memEnd < 2 ^ 64 → Reaches Step Legal (World.init m memStart memEnd) w₀ →
    Reaches Step Legal w₀ w → InvalidFree w₀ w p → ∃ fuel, kfree fuel w.heap p = some w.heap := by
  intro hall
  have hx : (exec (step 8) (fun w op => decide (Legal w op)) (World.init (fun _ => 0) 4096 8192)
      [.kmalloc 8, .kmalloc 8]).bind (fun w₀ =>
        (exec (step 8) (fun w op => decide (Legal w op)) w₀ [.kfree 4144, .kfree 4112,
          .kmalloc 100, .write 4112 24 0xAB, .write 4112 25 1]).map fun w =>
            (w₀.live, w.live, decide (Rejects w.heap 4144))) =
      some ([⟨4144, 8⟩, ⟨4112, 8⟩], [⟨4112, 100⟩], false) := by decide +kernel
  obtain ⟨w₀, hw₀, hx⟩ := Option.bind_eq_some_iff.mp hx
  obtain ⟨w, hw, hobs⟩ := Option.map_eq_some_iff.mp hx
  simp only [Prod.mk.injEq, decide_eq_false_iff_not] at hobs
  obtain ⟨hl₀, hl, hpass⟩ := hobs
  obtain ⟨fuel, hk⟩ := hall _ 4096 8192 w₀ w 4144 (by decide) (by decide) (legal_run hw₀)
    (legal_run hw) (.inr (.inr (.inr ⟨by simp [hl₀], by simp [hl]⟩)))
  exact hpass (kfree_eq_self_iff.mp hk)

end OSCompas.Memory
