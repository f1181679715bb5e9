import OSCompas.Memory.Safety

/-!
# The statistics of the heap

What `get_free_memory`, `get_used_memory` and `memory_integrity_check` say over a whole run.

* `Restored` — the statistics and the free list are those right after `memory_init`;
* `OpFails` — the call does not get a block;
* `Accounts` — the two equations `memory_integrity_check` verifies.

Principal results: `restored_of_fails` and `not_restored` (an allocation that was made leaves its
trace: no block given back has the size it was cut with), `conservation` (used and free memory
fall short of the total by 24 bytes for every free block and every allocation) and
`integrity_never_holds`.
-/

set_option autoImplicit false

namespace OSCompas.Memory

open ByteMemory Chain Runs

variable {m m' : Mem} {k n p r size fuel requested memStart memEnd : Nat} {s s' : State}
variable {w w' w₁ w₂ : World} {op : Op} {bs cs : List Block} {b c d : Block} {l l' : Layout}

/-! ## What an allocation leaves behind -/

/-- Every address in the layout is a multiple of 8. -/
def Layout.Aligned (l : Layout) : Prop :=
  (∀ b ∈ l.free, b.addr % 8 = 0) ∧ ∀ x ∈ l.held, x.addr % 8 = 0

/-- Something is allocated, or a block has a size `kfree` made. -/
def Layout.Touched (l : Layout) : Prop := l.held ≠ [] ∨ ∃ b ∈ l.free, b.size % 8 = 3

theorem mergeFrom_odd (ha : ∀ d ∈ c :: bs, d.addr % 8 = 0) (h : ∃ d ∈ c :: bs, d.size % 8 = 3) :
    ∃ d ∈ mergeFrom c bs, d.size % 8 = 3 := by
  induction bs generalizing c with
  | nil => exact h
  | cons b bs ih =>
    have hc := ha c (by simp)
    have hb := ha b (by simp)
    rw [mergeFrom]
    split
    · rename_i hadj
      -- an absorbing block ends at a multiple of 8, so its own size is one
      refine ih (fun d hd => ?_) ?_
      · rcases List.mem_cons.mp hd with rfl | hd
        · exact hc
        · exact ha d (by simp [hd])
      · obtain ⟨d, hd, h3⟩ := h
        rcases List.mem_cons.mp hd with rfl | hd
        · omega
        · rcases List.mem_cons.mp hd with rfl | hd
          · exact ⟨_, List.mem_cons_self, by simp only; omega⟩
          · exact ⟨d, List.mem_cons_of_mem _ hd, h3⟩
    · obtain ⟨d, hd, h3⟩ := h
      rcases List.mem_cons.mp hd with rfl | hd
      · exact ⟨d, by simp, h3⟩
      · obtain ⟨e, he, h3⟩ := ih (fun e he => ha e (List.mem_cons_of_mem _ he)) ⟨d, hd, h3⟩
        exact ⟨e, by simp [he], h3⟩

theorem merge_odd (ha : ∀ d ∈ bs, d.addr % 8 = 0) (h : ∃ d ∈ bs, d.size % 8 = 3) :
    ∃ d ∈ merge bs, d.size % 8 = 3 := by
  cases bs with
  | nil => exact h
  | cons c bs => exact mergeFrom_odd ha h

theorem Layout.Step.aligned (hs : Layout.Step l l') (h : l.Aligned) : l'.Aligned := by
  cases hs with
  | merge => exact ⟨merge_forall (fun _ _ hc _ _ => hc) h.1, h.2⟩
  | take hfit hmod =>
    rename_i pre post c hs size requested
    have hc : c.addr % 8 = 0 := h.1 c (by simp)
    refine ⟨fun d hd => ?_, fun x hx => ?_⟩
    · simp only [List.mem_append] at hd
      rcases hd with hd | hd | hd
      · exact h.1 d (by simp [hd])
      · have := (cutOff_within hfit hd).2.1
        omega
      · exact h.1 d (by simp [hd])
    · rcases List.mem_cons.mp hx with rfl | hx
      · exact hc
      · exact h.2 x hx
  | release =>
    rename_i bs pre post x size _
    refine ⟨fun d hd => ?_, fun y hy => h.2 y ?_⟩
    · rcases List.mem_cons.mp hd with rfl | hd
      · exact h.2 x (by simp)
      · exact h.1 d hd
    · exact mem_middle_of_mem hy
  | resize =>
    rename_i bs pre post x requested _
    refine ⟨h.1, fun y hy => ?_⟩
    rcases List.mem_cons.mp hy with rfl | hy
    · exact h.2 x (by simp)
    · exact h.2 y (mem_middle_of_mem hy)

/-- **Once touched, always touched.** -/
theorem Layout.Step.touched (hs : Layout.Step l l') (ha : l.Aligned) (h : l.Touched) :
    l'.Touched := by
  cases hs with
  | merge => exact h.imp id (merge_odd ha.1)
  | take => exact .inl (by simp)
  | release h3 => exact .inr ⟨_, List.mem_cons_self, h3⟩
  | resize => exact .inl (by simp)

theorem Layout.Steps.touched (hs : Layout.Steps l l') (ha : l.Aligned) (h : l.Touched) :
    l'.Touched := by
  suffices l'.Aligned ∧ l'.Touched from this.2
  induction hs with
  | refl => exact ⟨ha, h⟩
  | tail _ hs ih => exact ⟨hs.aligned ih.1, hs.touched ih.1 ih.2⟩

theorem HeapInv.aligned (h : HeapInv s l) : l.Aligned :=
  ⟨fun _ hb => (h.block_inHeap hb).2.2, fun _ hx => (h.held_inHeap hx).2.2⟩

/-! ## No memory is lost -/

/-- The statistics are those of `w₀`, and the free list is again the single block that covers the
whole heap. -/
structure Restored (w₀ w : World) : Prop where
  freeMemory : w.heap.freeMemory = w₀.heap.freeMemory
  usedMemory : w.heap.usedMemory = w₀.heap.usedMemory
  whole : FreeList w.heap.mem w.heap.freeList
    [⟨w₀.heap.heapStart, sub64 w₀.heap.totalMemory FREE_BLOCK_SIZE⟩]

/-- The call asks for nothing, or for more than any free block has, merged or not. -/
def OpFails (w : World) : Op → Prop
  | .kmalloc size => size = 0 ∨ SearchFails w.heap size
  | .kcalloc num size => num * size % 2 ^ 64 = 0 ∨ SearchFails w.heap (num * size % 2 ^ 64)
  | .krealloc _ size => size = 0 ∨ SearchFails w.heap size
  | .kfree _ => True
  | .write _ _ _ => True

theorem init_restored (h0 : alignUp memStart ≠ 0) :
    Restored (World.init m memStart memEnd) (World.init m memStart memEnd) :=
  ⟨rfl, rfl, init_freeList m memEnd h0⟩

/-- With one block on the list, or none, there is nothing to merge. -/
theorem coalesceBlocks_init (h0 : alignUp memStart ≠ 0)
    (hc : coalesceBlocks fuel (World.init m memStart memEnd).heap = some s') :
    s' = (World.init m memStart memEnd).heap := by
  obtain ⟨-, -, -, hn⟩ := freeList_cons.mp (init_freeList m memEnd h0)
  have hn0 := freeList_nil.mp hn
  have hp : (World.init m memStart memEnd).heap.freeList = alignUp memStart := rfl
  unfold coalesceBlocks at hc
  rw [hp] at hc
  cases fuel with
  | zero => cases hc
  | succ fuel =>
    simp only at hn0
    simp only [coalesceLoop, if_neg h0, hn0, ne_eq, not_true_eq_false, false_and, if_false] at hc
    cases fuel with
    | zero => cases hc
    | succ fuel =>
      rw [coalesceLoop, if_pos rfl] at hc
      exact (Option.some.inj hc).symm

theorem findBestFit_fails (h : findBestFit fuel s size = some r)
    (hl : FreeList s.mem s.freeList bs) (hno : NoFit size bs) : r = 0 := by
  rcases findBestFit_spec h hl with ⟨hr, -⟩ | ⟨b, hb, -, hfit, -⟩
  · exact hr
  · have := hno b hb
    omega

/-- A request that fails leaves the heap as `memory_init` made it. -/
theorem searchBlock_init {r : State × Nat} (h0 : alignUp memStart ≠ 0)
    (hno : SearchFails (World.init m memStart memEnd).heap n)
    (h : searchBlock fuel (World.init m memStart memEnd).heap (alignUp n) = some r) :
    ((World.init m memStart memEnd).heap, 0) = r := by
  have hl := init_freeList m memEnd h0
  have hnf := (hno _ hl).1
  unfold searchBlock at h
  obtain ⟨r1, hr1, h⟩ := Option.bind_eq_some_iff.mp h
  have h1 := findBestFit_fails hr1 hl hnf
  rw [if_neg (by simp [h1])] at h
  obtain ⟨s2, hc, h⟩ := Option.bind_eq_some_iff.mp h
  obtain ⟨r2, hr2, h⟩ := Option.bind_eq_some_iff.mp h
  rw [coalesceBlocks_init h0 hc] at hr2 h
  rw [findBestFit_fails hr2 hl hnf] at h
  exact Option.some.inj h

theorem kmalloc_init (h0 : alignUp memStart ≠ 0)
    (hno : n = 0 ∨ SearchFails (World.init m memStart memEnd).heap n)
    (hk : kmalloc fuel (World.init m memStart memEnd).heap n = some (s', p)) :
    s' = (World.init m memStart memEnd).heap ∧ p = 0 := by
  have hout (h : ((World.init m memStart memEnd).heap, 0) = (s', p)) :
      s' = (World.init m memStart memEnd).heap ∧ p = 0 :=
    ⟨(Prod.mk.inj h).1.symm, (Prod.mk.inj h).2.symm⟩
  unfold kmalloc at hk
  split at hk
  · exact hout (Option.some.inj hk)
  · rename_i hn
    have hfails := hno.resolve_left fun hn0 => hn (.inr hn0)
    obtain ⟨r, hsb, hk⟩ := Option.bind_eq_some_iff.mp hk
    rw [← searchBlock_init h0 hfails hsb] at hk
    simp only [if_true] at hk
    exact hout (Option.some.inj hk)

/-- **While every request fails, nothing changes.** -/
theorem step_fails (h0 : alignUp memStart ≠ 0)
    (hok : Legal (World.init m memStart memEnd) op ∧ OpFails (World.init m memStart memEnd) op)
    (hs : Step (World.init m memStart memEnd) op w') : w' = World.init m memStart memEnd := by
  obtain ⟨fuel, hs⟩ := hs
  obtain ⟨hleg, hno⟩ := hok
  have hnil : ∀ {ptr : Nat}, ¬ ∃ a ∈ (World.init m memStart memEnd).live, a.ptr = ptr := by
    simp [World.init]
  cases op with
  | kmalloc size =>
    obtain ⟨⟨s', p⟩, hk, rfl⟩ := Option.map_eq_some_iff.mp hs
    obtain ⟨rfl, rfl⟩ := kmalloc_init h0 hno hk
    rfl
  | kcalloc num size =>
    obtain ⟨⟨s', p⟩, hk, rfl⟩ := Option.map_eq_some_iff.mp hs
    unfold kcalloc at hk
    obtain ⟨⟨s1, q⟩, hm, hk⟩ := Option.bind_eq_some_iff.mp hk
    obtain ⟨rfl, rfl⟩ := kmalloc_init h0 hno hm
    simp only [if_true] at hk
    obtain ⟨rfl, rfl⟩ := Prod.mk.inj (Option.some.inj hk)
    rfl
  | krealloc ptr size =>
    obtain ⟨⟨s', p⟩, hk, rfl⟩ := Option.map_eq_some_iff.mp hs
    have hp : ptr = 0 := hleg.1.resolve_right hnil
    subst hp
    simp only [krealloc, if_true] at hk
    obtain ⟨rfl, rfl⟩ := kmalloc_init h0 hno hk
    rfl
  | kfree ptr =>
    obtain ⟨s', hk, rfl⟩ := Option.map_eq_some_iff.mp hs
    have hp : ptr = 0 := hleg.resolve_right hnil
    unfold kfree at hk
    rw [if_pos (.inl hp)] at hk
    obtain rfl := Option.some.inj hk
    rfl
  | write ptr i v =>
    obtain ⟨a, ha, -⟩ := hleg
    cases ha

theorem run_fails (h0 : alignUp memStart ≠ 0)
    (hrun : Reaches Step (fun w op => Legal w op ∧ OpFails w op) (World.init m memStart memEnd) w) :
    w = World.init m memStart memEnd := by
  refine hrun.invariant (I := fun w => w = World.init m memStart memEnd) rfl ?_
  rintro w₁ op w₂ rfl hok hs
  exact step_fails h0 hok hs

/-- Sizes of whole heaps are multiples of 8. -/
theorem init_size_mod (memStart memEnd : Nat) :
    sub64 (sub64 (alignDown memEnd) (alignUp memStart)) FREE_BLOCK_SIZE % 8 = 0 := by
  have h1 := alignUp_mod memStart
  have h2 := alignUp_lt memStart
  have h3 : alignDown memEnd % 8 = 0 := Nat.mul_mod_left _ _
  unfold sub64
  show ((alignDown memEnd + (2 ^ 64 - alignUp memStart)) % 2 ^ 64 + (2 ^ 64 - 24)) % 2 ^ 64 % 8 = 0
  omega

/-- After an allocation the heap never is as it was. -/
theorem Holds.not_restored (h : Holds w l) (ht : l.Touched) (hlive : w.live = []) :
    ¬ Restored (World.init m memStart memEnd) w := by
  intro hr
  have hheld : l.held = [] := by
    rw [h.live, List.map_eq_nil_iff] at hlive
    exact hlive
  obtain ⟨b, hb, h3⟩ := ht.resolve_left (not_not.mpr hheld)
  rw [h.inv.freeList.unique hr.whole, List.mem_singleton] at hb
  subst hb
  have := init_size_mod memStart memEnd
  exact absurd (this.symm.trans h3) (by decide)

/-- **The heap is restored in every run in which no request succeeds, and in no guarded run in
which one does.** -/
theorem restored_iff_fails (m : Mem) (memStart memEnd : Nat) (he : memEnd < 2 ^ 64)
    (h0 : alignUp memStart ≠ 0) :
    (∀ w, Reaches Step (fun w op => Legal w op ∧ OpFails w op) (World.init m memStart memEnd) w →
      Restored (World.init m memStart memEnd) w) ∧
    (RegionOk memStart memEnd → ∀ w₁ w₂,
      Reaches Step Guarded (World.init m memStart memEnd) w₁ → w₁.live ≠ [] →
      Reaches Step Guarded w₁ w₂ → w₂.live = [] →
      ¬ Restored (World.init m memStart memEnd) w₂) := by
  refine ⟨fun w hrun => ?_, fun hr w₁ w₂ hrun₁ hlive₁ hrun₂ hlive₂ => ?_⟩
  · rw [run_fails h0 hrun]
    exact init_restored h0
  · obtain ⟨l₁, h₁, -, -⟩ := run_holds (init_holds he hr) hrun₁
    obtain ⟨l₂, h₂, hs, -⟩ := run_holds h₁ hrun₂
    have ht : l₁.Touched := .inl fun hn => hlive₁ (by rw [h₁.live, hn, List.map_nil])
    exact h₂.not_restored (hs.touched h₁.inv.aligned ht) hlive₂

/-- A request that fails; and one that succeeds, freed again. -/
theorem restored_iff_fails_run :
    (∃ w, Reaches Step (fun w op => Legal w op ∧ OpFails w op)
        (World.init (fun _ => 0) 4096 8192) w ∧
      step 8 (World.init (fun _ => 0) 4096 8192) (.kmalloc 5000) = some w ∧
      Restored (World.init (fun _ => 0) 4096 8192) w) ∧
    ∃ w₁ w₂, Reaches Step Guarded (World.init (fun _ => 0) 4096 8192) w₁ ∧
      Reaches Step Guarded w₁ w₂ ∧ w₂.live = [] ∧
      ¬ Restored (World.init (fun _ => 0) 4096 8192) w₂ := by
  have hspec := restored_iff_fails (fun _ => 0) 4096 8192 (by decide) (by decide)
  constructor
  · have hfails : SearchFails (World.init (fun _ => 0) 4096 8192).heap 5000 := by
      intro bs hl
      rw [hl.unique (init_freeList _ _ (by decide))]
      unfold NoFit
      decide
    have hx : (step 8 (World.init (fun _ => 0) 4096 8192) (.kmalloc 5000)).isSome = true := by
      decide +kernel
    obtain ⟨w, hw⟩ := Option.isSome_iff_exists.mp hx
    have hrun : Reaches Step (fun w op => Legal w op ∧ OpFails w op)
        (World.init (fun _ => 0) 4096 8192) w :=
      .step (a := .kmalloc 5000) .refl ⟨by decide, .inr hfails⟩ ⟨8, hw⟩
    exact ⟨w, hrun, hw, hspec.1 w hrun⟩
  have hx : ((exec (step 8) (guarded 8) (World.init (fun _ => 0) 4096 8192)
      [.kmalloc 176]).bind fun w₁ => (exec (step 8) (guarded 8) w₁ [.kfree 4112]).map
        fun w₂ => (w₁.live, w₂.live)) = some ([⟨4112, 176⟩], []) := by decide +kernel
  obtain ⟨w₁, h₁, hx⟩ := Option.bind_eq_some_iff.mp hx
  obtain ⟨w₂, h₂, hlive⟩ := Option.map_eq_some_iff.mp hx
  obtain ⟨hl₁, hl₂⟩ := Prod.mk.inj hlive
  exact ⟨w₁, w₂, guarded_run h₁, guarded_run h₂, hl₂, hspec.2 (.inr (by decide)) w₁ w₂
    (guarded_run h₁) (by simp [hl₁]) (guarded_run h₂) hl₂⟩

/-- 8 bytes are handed out and given back: `get_used_memory` is then not 0. -/
theorem memory_lost : ¬ ∀ m memStart memEnd w, memStart ≤ memEnd → memEnd < 2 ^ 64 →
    Reaches Step Legal (World.init m memStart memEnd) w → w.live = [] →
    Restored (World.init m memStart memEnd) w := by
  intro hall
  have hx : (exec (step 8) (fun w op => decide (Legal w op))
      (World.init (fun _ => 0) 4096 8192) [.kmalloc 8, .kfree 4112]).map
      (fun w => (w.live, w.heap.usedMemory)) = some ([], 18446744073709547496) := by
    decide +kernel
  obtain ⟨w, hw, hobs⟩ := Option.map_eq_some_iff.mp hx
  obtain ⟨hl, hu⟩ := Prod.mk.inj hobs
  have hr := (hall _ 4096 8192 w (by decide) (by decide) (legal_run hw) hl).usedMemory
  rw [hu] at hr
  exact absurd hr (by decide)

/-! ## The integrity check -/

/-- The bytes of the free list as `memory_integrity_check` counts them. -/
def freeBytes (bs : List Block) : Nat := (bs.map fun b => b.size + FREE_BLOCK_SIZE).sum

/-- The two equations `memory_integrity_check` verifies, in 64-bit arithmetic. -/
structure Accounts (s : State) : Prop where
  free : ∀ bs, FreeList s.mem s.freeList bs → freeBytes bs % 2 ^ 64 = s.freeMemory
  total : (s.usedMemory + s.freeMemory) % 2 ^ 64 = s.totalMemory

theorem integrityLoop_spec {acc cnt : Nat} {q : Nat × Nat}
    (h : integrityLoop m fuel p acc cnt = some q) (hl : FreeList m p bs) (ha : acc < 2 ^ 64) :
    q.1 = (acc + freeBytes bs) % 2 ^ 64 := by
  induction bs generalizing fuel p acc cnt with
  | nil =>
    cases fuel with
    | zero => cases h
    | succ fuel =>
      rw [integrityLoop, if_pos (freeList_nil.mp hl)] at h
      cases h
      exact (Nat.mod_eq_of_lt ha).symm
  | cons b bs ih =>
    cases fuel with
    | zero => cases h
    | succ fuel =>
      obtain ⟨rfl, hb, hs, hn⟩ := freeList_cons.mp hl
      rw [integrityLoop, if_neg hb, hs] at h
      have hq := ih h hn (Nat.mod_lt _ (by decide))
      unfold freeBytes at hq ⊢
      rw [List.map_cons, List.sum_cons, hq]
      omega

/-- **What the check prints**: its first error line exactly if the first equation fails, its second
one exactly if the second fails. -/
theorem memoryIntegrityCheck_spec {lines : List CheckLine}
    (h : memoryIntegrityCheck fuel s = some lines) (hl : FreeList s.mem s.freeList bs) :
    ((∃ calculated recorded, CheckLine.freeMismatch calculated recorded ∈ lines) ↔
      freeBytes bs % 2 ^ 64 ≠ s.freeMemory) ∧
    (CheckLine.inconsistent ∈ lines ↔
      (s.usedMemory + s.freeMemory) % 2 ^ 64 ≠ s.totalMemory) := by
  unfold memoryIntegrityCheck at h
  obtain ⟨⟨calculated, cnt⟩, hloop, h⟩ := Option.bind_eq_some_iff.mp h
  have hcalc := integrityLoop_spec hloop hl (by decide)
  simp only [Nat.zero_add] at hcalc
  rw [← hcalc]
  cases h
  constructor
  · by_cases h1 : calculated = s.freeMemory
    · simp [h1]
    · simp [h1]
  · simp

theorem Accounts.no_error {lines : List CheckLine} (ha : Accounts s)
    (h : memoryIntegrityCheck fuel s = some lines) (hl : FreeList s.mem s.freeList bs) :
    (∀ calculated recorded, CheckLine.freeMismatch calculated recorded ∉ lines) ∧
      CheckLine.inconsistent ∉ lines := by
  obtain ⟨h1, h2⟩ := memoryIntegrityCheck_spec h hl
  refine ⟨fun c r hc => h1.mp ⟨c, r, hc⟩ (ha.free _ hl), fun hc => h2.mp hc ha.total⟩

/-- **Used and free memory fall short of the total by 24 bytes for every free block and every
allocation**, and there is at least one. -/
theorem HeapInv.conservation (h : HeapInv s l) (h0 : s.heapStart ≠ 0) :
    (s.usedMemory + s.freeMemory) % 2 ^ 64 ≠ s.totalMemory % 2 ^ 64 := by
  obtain ⟨hne, hbal⟩ := h.accounted h0
  have hend := h.heapEnd_lt
  have hlen := List.length_pos_iff.mpr hne
  have hroom : l.spans.length * 24 ≤ s.heapEnd - s.heapStart := by
    refine Span.length_mul_le (t := ⟨s.heapStart, s.heapEnd - s.heapStart⟩) h.apart
      (fun r hr => ?_) fun r hr => ?_
    · obtain ⟨h1, h2, -⟩ := h.inside r hr
      refine ⟨h1, Nat.le_trans h2 ?_⟩
      show s.heapEnd ≤ s.heapStart + (s.heapEnd - s.heapStart)
      omega
    · rcases Layout.mem_spans.mp hr with ⟨b, -, rfl⟩ | ⟨x, hx, rfl⟩
      · show 24 ≤ 24 + b.size
        omega
      · have := (h.held x hx).pos
        show 24 ≤ 16 + x.size
        omega
  intro heq
  -- otherwise the missing bytes would be a multiple of 2 ^ 64
  have hzero : 24 * l.spans.length ≡ 0 [MOD 2 ^ 64] :=
    Nat.ModEq.add_left_cancel' (s.usedMemory + s.freeMemory) (hbal.trans heq.symm)
  have := Nat.eq_zero_of_dvd_of_lt ((Nat.modEq_zero_iff_dvd).mp hzero) (by omega)
  omega

/-- **The accounting the check verifies never holds**: not right after `memory_init`, whatever the
region, and in no state of a guarded run, in each of which the check prints its second error
line. -/
theorem integrity_never_holds (m : Mem) (memStart memEnd : Nat) :
    (¬ ∀ w, Reaches Step Legal (World.init m memStart memEnd) w → Accounts w.heap) ∧
    (memEnd < 2 ^ 64 → RegionOk memStart memEnd → alignUp memStart ≠ 0 → ∀ w,
      Reaches Step Guarded (World.init m memStart memEnd) w → ¬ Accounts w.heap ∧
        ∀ fuel lines, memoryIntegrityCheck fuel w.heap = some lines →
          CheckLine.inconsistent ∈ lines) := by
  refine ⟨fun hall => ?_, fun he hr h0 w hrun => ?_⟩
  · have htot := (hall _ .refl).total
    have h1 : (0 + sub64 (sub64 (alignDown memEnd) (alignUp memStart)) 24) % 2 ^ 64 =
        sub64 (alignDown memEnd) (alignUp memStart) := htot
    have h2 : sub64 (alignDown memEnd) (alignUp memStart) < 2 ^ 64 := Nat.mod_lt _ (by decide)
    revert h1 h2
    generalize sub64 (alignDown memEnd) (alignUp memStart) = t
    unfold sub64
    omega
  · obtain ⟨l, h, -, hreg⟩ := run_holds (init_holds he hr) hrun
    have hstart : w.heap.heapStart ≠ 0 := by
      rw [hreg.heapStart]
      exact h0
    have htotal : w.heap.totalMemory % 2 ^ 64 = w.heap.totalMemory := by
      rw [hreg.totalMemory]
      exact Nat.mod_eq_of_lt (Nat.mod_lt _ (by decide))
    have hne := h.inv.conservation hstart
    rw [htotal] at hne
    exact ⟨fun ha => hne ha.total, fun fuel lines hc =>
      (memoryIntegrityCheck_spec hc h.inv.freeList).2.mpr hne⟩

theorem integrity_never_holds_run : ∃ w, w.live = [⟨4112, 176⟩] ∧
    Reaches Step Guarded (World.init (fun _ => 0) 4096 8192) w ∧ ¬ Accounts w.heap := by
  have hx : (exec (step 8) (guarded 8) (World.init (fun _ => 0) 4096 8192)
      [.kmalloc 176]).map (fun w => w.live) = some [⟨4112, 176⟩] := by decide +kernel
  obtain ⟨w, hw, hl⟩ := Option.map_eq_some_iff.mp hx
  exact ⟨w, hl, guarded_run hw, ((integrity_never_holds _ 4096 8192).2 (by decide)
    (.inr (by decide)) (by decide) w (guarded_run hw)).1⟩

/-- Right after `memory_init` of 4096 bytes the two counters add up to 4072. -/
theorem integrity_violated : ¬ ∀ m memStart memEnd w, memStart ≤ memEnd → memEnd < 2 ^ 64 →
    Reaches Step Legal (World.init m memStart memEnd) w → Accounts w.heap := by
  intro hall
  have htot := (hall (fun _ => 0) 4096 8192 _ (by decide) (by decide) .refl).total
  exact absurd htot (by decide +kernel)

end OSCompas.Memory
