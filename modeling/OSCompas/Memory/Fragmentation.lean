import Mathlib.Data.List.Chain
import OSCompas.Memory.Safety

/-!
# Fragmentation

`coalesce_blocks` compares a block with its successor on the list only, so it joins two
neighbours in memory exactly when they are neighbours on the list, the lower one first.

* `Ready` — the manager is initialised, which every call keeps;
* `Seam bs a` — two blocks in a row on the list meet at the address `a`;
* `Chained`, `InOrder` — neighbours in memory are neighbours on the list;
* `MergesAll`, `FailsOnlyWhenFull` — merging leaves no neighbours, and no call fails for want of
  merging.

Principal results: `merge_noNeighbours_iff`, `merge_covers` and `unfragmented_iff`.
-/

set_option autoImplicit false

namespace OSCompas.Memory

open ByteMemory Chain Runs

variable {m : Mem} {a n p q r size block fuel memStart memEnd : Nat} {s s' : State}
  {w w' : World} {op : Op}
  {bs run pre post : List Block} {b c d e : Block}

/-! ## States of any run -/

/-- `memory_init` has been called. -/
def Ready (s : State) : Prop := s.initialized = true

theorem Ready.of_eq (h : Ready s) (he : s'.initialized = s.initialized) : Ready s' := he.trans h

theorem splitBlock_ready (h : Ready s) : Ready (splitBlock s block size) := by
  unfold splitBlock
  dsimp only
  split
  · exact h
  · exact h.of_eq rfl

theorem coalesceLoop_ready (h : Ready s) (hs : coalesceLoop fuel s p = some s') : Ready s' := by
  induction fuel generalizing s p with
  | zero => cases hs
  | succ fuel ih =>
    unfold coalesceLoop at hs
    split at hs
    · cases hs
      exact h
    · dsimp only at hs
      split at hs
      · apply ih _ hs
        exact h.of_eq rfl
      · exact ih h hs

theorem removeFromFreeList_ready (h : Ready s) (hs : removeFromFreeList fuel s block = some s') :
    Ready s' := by
  unfold removeFromFreeList at hs
  split at hs
  · cases hs
    exact h.of_eq rfl
  · obtain ⟨c, -, rfl⟩ := Option.map_eq_some_iff.mp hs
    split
    · exact h
    · exact h.of_eq rfl

theorem searchBlock_ready (h : Ready s) (hs : searchBlock fuel s size = some (s', r)) :
    Ready s' := by
  unfold searchBlock at hs
  obtain ⟨b, -, hs⟩ := Option.bind_eq_some_iff.mp hs
  split at hs
  · cases hs
    exact h
  · obtain ⟨s₁, hc, hs⟩ := Option.bind_eq_some_iff.mp hs
    obtain ⟨b', -, hs⟩ := Option.bind_eq_some_iff.mp hs
    cases hs
    exact coalesceLoop_ready h hc

theorem takeBlock_ready (h : Ready s) (hs : takeBlock fuel s block size = some s') : Ready s' := by
  unfold takeBlock at hs
  obtain ⟨s₁, hr, hs⟩ := Option.bind_eq_some_iff.mp hs
  cases hs
  have h₁ : Ready s₁ := removeFromFreeList_ready (splitBlock_ready h) hr
  exact h₁.of_eq rfl

theorem kmalloc_ready (h : Ready s) (hs : kmalloc fuel s n = some (s', p)) : Ready s' := by
  unfold kmalloc at hs
  split at hs
  · cases hs
    exact h
  · obtain ⟨⟨s₁, b⟩, hb, hs⟩ := Option.bind_eq_some_iff.mp hs
    dsimp only at hs
    have h₁ := searchBlock_ready h hb
    split at hs
    · cases hs
      exact h₁
    · obtain ⟨s₂, ht, hs⟩ := Option.bind_eq_some_iff.mp hs
      cases hs
      exact takeBlock_ready h₁ ht

/-- `kfree` once its checks have passed. -/
theorem kfree_eq_giveBack (h0 : ¬ (p = 0 ∨ s.initialized = false)) (hb : blockFromPtr p = block)
    (h1 : ¬ (block < s.heapStart ∨ s.heapEnd ≤ block))
    (h2 : ¬ headerMagic s.mem block ≠ BLOCK_MAGIC) (h3 : ¬ headerUsed s.mem block = 0) :
    kfree fuel s p = coalesceBlocks fuel (giveBack s block) := by
  unfold kfree
  rw [if_neg h0, hb]
  simp only
  rw [if_neg h1, if_neg h2, if_neg h3]
  rfl

theorem kfree_ready (h : Ready s) (hs : kfree fuel s p = some s') : Ready s' := by
  by_cases h0 : p = 0 ∨ s.initialized = false
  · unfold kfree at hs
    rw [if_pos h0] at hs
    cases hs
    exact h
  · obtain ⟨b, hb⟩ : ∃ b, blockFromPtr p = b := ⟨_, rfl⟩
    by_cases hok : ¬ (b < s.heapStart ∨ s.heapEnd ≤ b) ∧ ¬ headerMagic s.mem b ≠ BLOCK_MAGIC ∧
        ¬ headerUsed s.mem b = 0
    · obtain ⟨h1, h2, h3⟩ := hok
      rw [kfree_eq_giveBack h0 hb h1 h2 h3] at hs
      apply coalesceLoop_ready _ hs
      exact h.of_eq rfl
    · -- one of the checks fails, and `kfree` returns at it
      have hsame : kfree fuel s p = some s := by
        unfold kfree
        rw [if_neg h0, hb]
        simp only [not_and_or, not_not] at hok
        rcases hok with h1 | h2 | h3
        · simp only [h1, if_true]
        · simp only [h2, ne_eq, not_false_eq_true, if_true, ite_self]
        · simp only [h3, if_true, ite_self]
      rw [hsame] at hs
      cases hs
      exact h

theorem krealloc_ready (h : Ready s) (hs : krealloc fuel s p n = some (s', q)) : Ready s' := by
  unfold krealloc at hs
  split at hs
  · exact kmalloc_ready h hs
  · split at hs
    · obtain ⟨s₁, hf, hs⟩ := Option.bind_eq_some_iff.mp hs
      cases hs
      exact kfree_ready h hf
    · simp only at hs
      split at hs
      · cases hs
        exact h
      · obtain ⟨⟨s₁, r⟩, hm, hs⟩ := Option.bind_eq_some_iff.mp hs
        have h₁ := kmalloc_ready h hm
        simp only at hs
        split at hs
        · cases hs
          exact h₁
        · obtain ⟨s₂, hf, hs⟩ := Option.bind_eq_some_iff.mp hs
          cases hs
          apply kfree_ready _ hf
          exact h₁.of_eq rfl

theorem step_ready (h : Ready w.heap) (hs : Step w op w') : Ready w'.heap := by
  obtain ⟨fuel, hs⟩ := hs
  cases op with
  | kmalloc size =>
    obtain ⟨⟨s', p⟩, hk, rfl⟩ := Option.map_eq_some_iff.mp hs
    exact kmalloc_ready h hk
  | kcalloc num size =>
    obtain ⟨⟨s', p⟩, hk, rfl⟩ := Option.map_eq_some_iff.mp hs
    unfold kcalloc at hk
    obtain ⟨⟨s₁, q⟩, hm, hk⟩ := Option.bind_eq_some_iff.mp hk
    have h₁ := kmalloc_ready h hm
    dsimp only at hk
    split at hk
    · cases hk
      exact h₁
    · cases hk
      exact h₁.of_eq rfl
  | krealloc ptr size =>
    obtain ⟨⟨s', p⟩, hk, rfl⟩ := Option.map_eq_some_iff.mp hs
    exact krealloc_ready h hk
  | kfree ptr =>
    obtain ⟨s', hk, rfl⟩ := Option.map_eq_some_iff.mp hs
    exact kfree_ready h hk
  | write ptr i v =>
    cases hs
    exact h

/-- **The manager stays initialised in every run, whatever becomes of the free list.** -/
theorem run_ready (hrun : Reaches Step Legal (World.init m memStart memEnd) w) :
    Ready w.heap := by
  apply hrun.invariant (I := fun w => Ready w.heap)
  · rfl
  · intro w op w' h _ hs
    exact step_ready h hs

/-! ## Neighbours -/

/-- The first address behind a block. -/
def Block.stop (b : Block) : Nat := b.addr + 24 + b.size

/-- `c` starts where `b` stops, which is what `coalesce_blocks` tests. -/
def Meets (b c : Block) : Prop := b.stop = c.addr

/-- Two blocks in a row on the list meet at `a`. -/
def Seam (bs : List Block) (a : Nat) : Prop :=
  ∃ b c, [b, c] <:+: bs ∧ b.stop = a ∧ c.addr = a

/-- Neighbours in memory follow each other on the list. -/
def Chained (bs : List Block) : Prop := ∀ b ∈ bs, ∀ c ∈ bs, Meets b c → [b, c] <:+: bs

theorem pair_cons : [b, c] <:+: d :: bs ↔ (b = d ∧ [c] <+: bs) ∨ [b, c] <:+: bs := by
  rw [List.infix_cons_iff, List.cons_prefix_cons]

theorem pair_mem (h : [b, c] <:+: bs) : b ∈ bs ∧ c ∈ bs :=
  ⟨h.subset (by simp), h.subset (by simp)⟩

theorem Seam.cons (h : Seam bs a) : Seam (b :: bs) a := by
  obtain ⟨x, y, hxy, hx, hy⟩ := h
  exact ⟨x, y, pair_cons.mpr (.inr hxy), hx, hy⟩

theorem Seam.head (h : Meets b c) : Seam (b :: c :: bs) c.addr :=
  ⟨b, c, ⟨[], bs, rfl⟩, h, rfl⟩

/-- A seam at the end of a block that has absorbed `b` is a seam at the end of `b`. -/
theorem Seam.absorb (h : Seam (d :: bs) a) (hd : d.stop = b.stop) : Seam (b :: bs) a := by
  obtain ⟨x, y, hxy, hx, hy⟩ := h
  rcases pair_cons.mp hxy with ⟨rfl, hp⟩ | hi
  · exact ⟨b, y, pair_cons.mpr (.inl ⟨rfl, hp⟩), hd.symm.trans hx, hy⟩
  · exact ⟨x, y, pair_cons.mpr (.inr hi), hx, hy⟩

/-! ## Where merged blocks start and stop -/

theorem absorb_stop (h : Meets c b) : Block.stop ⟨c.addr, c.size + (24 + b.size)⟩ = b.stop := by
  unfold Meets Block.stop at *
  dsimp only
  omega

/-- A merged block starts where some block started. -/
theorem mergeFrom_start (hd : d ∈ mergeFrom c bs) : ∃ x ∈ c :: bs, x.addr = d.addr := by
  apply mergeFrom_forall (P := fun d => ∃ x ∈ c :: bs, x.addr = d.addr) _ _ d hd
  · intro x y hx _ _
    exact hx
  · intro x hx
    exact ⟨x, hx, rfl⟩

/-- A merged block stops where some block stopped. -/
theorem mergeFrom_stop (hd : d ∈ mergeFrom c bs) : ∃ x ∈ c :: bs, x.stop = d.stop := by
  apply mergeFrom_forall (P := fun d => ∃ x ∈ c :: bs, x.stop = d.stop) _ _ d hd
  · intro x y _ hy hxy
    rw [absorb_stop hxy]
    exact hy
  · intro x hx
    exact ⟨x, hx, rfl⟩

/-- The first merged block starts where the first block started. -/
theorem mergeFrom_head (c : Block) (bs : List Block) : ∃ d ∈ mergeFrom c bs, d.addr = c.addr := by
  induction bs generalizing c with
  | nil => exact ⟨c, by simp [mergeFrom], rfl⟩
  | cons b bs ih =>
    rw [mergeFrom]
    split
    · exact ih ⟨c.addr, c.size + (24 + b.size)⟩
    · exact ⟨c, by simp, rfl⟩

/-- A block that is not absorbed by its predecessor starts a merged block. -/
theorem start_or_seam (hb : b ∈ bs) :
    (∃ d ∈ mergeFrom c bs, d.addr = b.addr) ∨ Seam (c :: bs) b.addr := by
  induction bs generalizing c with
  | nil => cases hb
  | cons x bs ih =>
    rw [mergeFrom]
    split
    · rename_i hcx
      rcases List.mem_cons.mp hb with rfl | hb
      · exact .inr (Seam.head hcx)
      · rcases ih (c := ⟨c.addr, c.size + (24 + x.size)⟩) hb with hd | hs
        · exact .inl hd
        · exact .inr (hs.absorb (absorb_stop hcx)).cons
    · rcases List.mem_cons.mp hb with rfl | hb
      · obtain ⟨d, hd, had⟩ := mergeFrom_head b bs
        exact .inl ⟨d, List.mem_cons_of_mem _ hd, had⟩
      · rcases ih (c := x) hb with ⟨d, hd, had⟩ | hs
        · exact .inl ⟨d, List.mem_cons_of_mem _ hd, had⟩
        · exact .inr hs.cons

/-- A block that does not absorb its successor stops a merged block. -/
theorem stop_or_seam (hb : b ∈ c :: bs) :
    (∃ d ∈ mergeFrom c bs, d.stop = b.stop) ∨ Seam (c :: bs) b.stop := by
  induction bs generalizing c b with
  | nil =>
    left
    exact ⟨b, hb, rfl⟩
  | cons x bs ih =>
    rw [mergeFrom]
    split
    · rename_i hcx
      have hstop := absorb_stop hcx
      rcases List.mem_cons.mp hb with rfl | hb
      · right
        have hseam : Seam (b :: x :: bs) x.addr := Seam.head hcx
        rw [show x.addr = b.stop from hcx.symm] at hseam
        exact hseam
      · have hsplit : (∃ d ∈ mergeFrom ⟨c.addr, c.size + (24 + x.size)⟩ bs, d.stop = b.stop) ∨
            Seam (⟨c.addr, c.size + (24 + x.size)⟩ :: bs) b.stop := by
          rcases List.mem_cons.mp hb with rfl | hb
          · rw [← hstop]
            exact ih (by simp)
          · exact ih (List.mem_cons_of_mem _ hb)
        rcases hsplit with hd | hs
        · exact .inl hd
        · exact .inr (hs.absorb hstop).cons
    · rcases List.mem_cons.mp hb with rfl | hb
      · exact .inl ⟨b, by simp, rfl⟩
      · rcases ih hb with ⟨d, hd, hds⟩ | hs
        · exact .inl ⟨d, List.mem_cons_of_mem _ hd, hds⟩
        · exact .inr hs.cons

/-- Behind the first one, a merged block starts where a block did not meet its predecessor. -/
theorem mergeFrom_gap (hd : d ∈ mergeFrom c bs) :
    d.addr = c.addr ∨ ∃ x y, [x, y] <:+: c :: bs ∧ y.addr = d.addr ∧ x.stop ≠ d.addr := by
  induction bs generalizing c with
  | nil =>
    left
    rw [List.mem_singleton.mp hd]
  | cons b bs ih =>
    rw [mergeFrom] at hd
    split at hd
    · rename_i hcb
      rcases ih hd with hd | ⟨x, y, hxy, hy, hx⟩
      · exact .inl hd
      · right
        rcases pair_cons.mp hxy with ⟨rfl, hp⟩ | hi
        · rw [absorb_stop hcb] at hx
          exact ⟨b, y, pair_cons.mpr (.inr (pair_cons.mpr (.inl ⟨rfl, hp⟩))), hy, hx⟩
        · exact ⟨x, y, pair_cons.mpr (.inr (pair_cons.mpr (.inr hi))), hy, hx⟩
    · rename_i hcb
      rcases List.mem_cons.mp hd with rfl | hd
      · exact .inl rfl
      · right
        rcases ih hd with hd | ⟨x, y, hxy, hy, hx⟩
        · rw [hd]
          exact ⟨c, b, ⟨[], bs, rfl⟩, rfl, hcb⟩
        · exact ⟨x, y, pair_cons.mpr (.inr hxy), hy, hx⟩

/-! ## Blocks of a layout are told apart by either end -/

theorem Laid.eq_of_overlap (h : Laid bs) (hb : b ∈ bs) (hc : c ∈ bs)
    (hov : ¬ Span.Apart b.span c.span) : b = c := by
  by_contra hne
  obtain ⟨pre, post, rfl⟩ := List.append_of_mem hb
  apply hov
  apply h.apart_of_mem
  simp only [List.mem_append, List.mem_cons] at hc ⊢
  tauto

theorem Laid.eq_of_addr (h : Laid bs) (hb : b ∈ bs) (hc : c ∈ bs) (hbc : b.addr = c.addr) :
    b = c := by
  apply h.eq_of_overlap hb hc
  intro hap
  have := Block.apart_iff.mp hap
  simp only [Block.span, show FREE_BLOCK_SIZE = 24 from rfl] at this
  omega

theorem Laid.eq_of_stop (h : Laid bs) (hb : b ∈ bs) (hc : c ∈ bs) (hbc : b.stop = c.stop) :
    b = c := by
  apply h.eq_of_overlap hb hc
  intro hap
  have := Block.apart_iff.mp hap
  unfold Block.stop at hbc
  simp only [Block.span, show FREE_BLOCK_SIZE = 24 from rfl] at this
  omega

theorem Laid.nodup (h : Laid bs) : bs.Nodup := by
  apply (List.pairwise_map.mp h.apart).imp
  rintro b c hap rfl
  have := Block.apart_iff.mp hap
  simp only [Block.span, show FREE_BLOCK_SIZE = 24 from rfl] at this
  omega

/-! ## Pairs in a row -/

theorem pair_ne_head (h : [b, c] <:+: c :: bs) (hn : (c :: bs).Nodup) : False := by
  apply (List.nodup_cons.mp hn).1
  rcases pair_cons.mp h with ⟨-, hp⟩ | hi
  · exact hp.subset (by simp)
  · exact (pair_mem hi).2

/-- In a list without repetitions a block has one predecessor. -/
theorem pair_left_unique (hn : bs.Nodup) (h : [b, d] <:+: bs) (h' : [c, d] <:+: bs) : b = c := by
  induction bs with
  | nil => exact absurd (pair_mem h).1 (by simp)
  | cons x bs ih =>
    have hno {y : Block} (hp : [d] <+: bs) (hi : [y, d] <:+: bs) : False := by
      obtain ⟨t, rfl⟩ := hp
      exact pair_ne_head hi (List.nodup_cons.mp hn).2
    rcases pair_cons.mp h with ⟨rfl, hp⟩ | hi
    · rcases pair_cons.mp h' with ⟨rfl, -⟩ | hi'
      · rfl
      · exact (hno hp hi').elim
    · rcases pair_cons.mp h' with ⟨rfl, hp⟩ | hi'
      · exact (hno hp hi).elim
      · exact ih (List.nodup_cons.mp hn).2 hi hi'

/-- Blocks that follow each other pairwise follow each other as a whole. -/
theorem run_infix (hn : bs.Nodup) (hne : run ≠ []) (hmem : ∀ b ∈ run, b ∈ bs)
    (h : run.IsChain fun b c => [b, c] <:+: bs) : run <:+: bs := by
  induction run with
  | nil => exact absurd rfl hne
  | cons b run ih =>
    cases run with
    | nil =>
      obtain ⟨pre, post, rfl⟩ := List.append_of_mem (hmem b (by simp))
      exact ⟨pre, post, by simp⟩
    | cons c run =>
      obtain ⟨hbc, hrest⟩ := List.isChain_cons_cons.mp h
      obtain ⟨pre, post, rfl⟩ := ih (by simp) (fun x hx => hmem x (List.mem_cons_of_mem _ hx)) hrest
      rcases List.eq_nil_or_concat pre with rfl | ⟨pre, x, rfl⟩
      · exact (pair_ne_head hbc hn).elim
      · have hxc : [x, c] <:+: pre.concat x ++ (c :: run) ++ post := ⟨pre, run ++ post, by simp⟩
        have hbx := pair_left_unique hn hbc hxc
        exact ⟨pre, post, by simp [hbx]⟩

/-! ## When merging is complete -/

/-- **Merging leaves no neighbours exactly when neighbours were chained before.** -/
theorem merge_noNeighbours_iff (h : Laid bs) :
    (∀ d ∈ merge bs, ∀ e ∈ merge bs, ¬ Meets d e) ↔ Chained bs := by
  cases bs with
  | nil => simp [merge, Chained]
  | cons x bs =>
    have hseam {b c : Block} (hb : b ∈ x :: bs) (hc : c ∈ x :: bs) (hbc : Meets b c)
        (hs : Seam (x :: bs) c.addr) : [b, c] <:+: x :: bs := by
      obtain ⟨y, z, hyz, hy, hz⟩ := hs
      obtain ⟨hym, hzm⟩ := pair_mem hyz
      have hyb : y = b := h.eq_of_stop hym hb (hy.trans hbc.symm)
      have hzc : z = c := h.eq_of_addr hzm hc hz
      rw [← hyb, ← hzc]
      exact hyz
    constructor
    · intro hno b hb c hc hbc
      rcases stop_or_seam hb with ⟨d, hd, hds⟩ | hs
      · have hstart : (∃ e ∈ mergeFrom x bs, e.addr = c.addr) ∨ Seam (x :: bs) c.addr := by
          rcases List.mem_cons.mp hc with rfl | hc
          · exact .inl (mergeFrom_head c bs)
          · exact start_or_seam hc
        rcases hstart with ⟨e, he, hea⟩ | hs
        · exact absurd (hds.trans (hbc.trans hea.symm)) (hno d hd e he)
        · exact hseam hb hc hbc hs
      · rw [show b.stop = c.addr from hbc] at hs
        exact hseam hb hc hbc hs
    · intro hch d hd e he hde
      obtain ⟨b, hb, hbs⟩ := mergeFrom_stop hd
      obtain ⟨c, hc, hca⟩ := mergeFrom_start he
      have hbc : Meets b c := hbs.trans (hde.trans hca.symm)
      have hpair := hch b hb c hc hbc
      rcases mergeFrom_gap he with hex | ⟨y, z, hyz, hz, hy⟩
      · have hcx : c = x := h.eq_of_addr hc (by simp) (hca.trans hex)
        rw [hcx] at hpair
        exact pair_ne_head hpair h.nodup
      · have hzc : z = c := h.eq_of_addr (pair_mem hyz).2 hc (hz.trans hca.symm)
        rw [hzc] at hyz
        apply hy
        rw [pair_left_unique h.nodup hyz hpair]
        exact hbc.trans hca

/-! ## What merging makes available -/

/-- The bytes of a run of blocks, headers included. -/
def runBytes (run : List Block) : Nat := (run.map fun b => 24 + b.size).sum

theorem runBytes_cons (b : Block) (run : List Block) :
    runBytes (b :: run) = 24 + b.size + runBytes run := rfl

/-- The loop joins a run of neighbours that starts at the block it has come to. -/
theorem mergeFrom_run (post : List Block) (h : (c :: run).IsChain Meets) :
    ∃ d ∈ mergeFrom c (run ++ post), runBytes (c :: run) ≤ 24 + d.size := by
  induction run generalizing c with
  | nil =>
    induction post generalizing c with
    | nil => exact ⟨c, by simp [mergeFrom], Nat.le_refl _⟩
    | cons x post ih =>
      rw [List.nil_append, mergeFrom]
      split
      · obtain ⟨d, hd, hle⟩ := ih (c := ⟨c.addr, c.size + (24 + x.size)⟩) (by simp)
        refine ⟨d, hd, le_trans ?_ hle⟩
        simp only [runBytes_cons]
        omega
      · exact ⟨c, by simp, Nat.le_refl _⟩
  | cons x run ih =>
    obtain ⟨hcx, hrest⟩ := List.isChain_cons_cons.mp h
    rw [List.cons_append, mergeFrom, if_pos (show c.addr + 24 + c.size = x.addr from hcx)]
    have hjoined : (⟨c.addr, c.size + (24 + x.size)⟩ :: run : List Block).IsChain Meets := by
      apply hrest.imp_head
      intro y hxy
      exact (absorb_stop hcx).trans hxy
    obtain ⟨d, hd, hle⟩ := ih hjoined
    refine ⟨d, hd, le_trans ?_ hle⟩
    simp only [runBytes_cons]
    omega

theorem mergeFrom_covers (h : (b :: run).IsChain Meets) :
    ∃ d ∈ mergeFrom c (pre ++ b :: run ++ post), runBytes (b :: run) ≤ 24 + d.size := by
  induction pre generalizing c with
  | nil =>
    by_cases hcb : Meets c b
    · obtain ⟨d, hd, hle⟩ := mergeFrom_run post (List.isChain_cons_cons.mpr ⟨hcb, h⟩)
      refine ⟨d, hd, le_trans ?_ hle⟩
      rw [runBytes_cons c]
      omega
    · obtain ⟨d, hd, hle⟩ := mergeFrom_run post h
      refine ⟨d, ?_, hle⟩
      rw [List.nil_append, List.cons_append, mergeFrom,
        if_neg (show ¬ c.addr + 24 + c.size = b.addr from hcb)]
      exact List.mem_cons_of_mem _ hd
  | cons x pre ih =>
    rw [List.cons_append, List.cons_append, mergeFrom]
    split
    · exact ih
    · obtain ⟨d, hd, hle⟩ := ih (c := x)
      exact ⟨d, List.mem_cons_of_mem _ hd, hle⟩

/-- **When neighbours are chained, a run of them ends up inside one block.** -/
theorem merge_covers (h : Laid bs) (hch : Chained bs) (hne : run ≠ [])
    (hmem : ∀ b ∈ run, b ∈ bs) (hrun : run.IsChain Meets) :
    ∃ d ∈ merge bs, runBytes run ≤ 24 + d.size := by
  have hpairs : run.IsChain fun b c => [b, c] <:+: bs := by
    apply hrun.imp_of_mem_imp
    intro b c hb hc hbc
    exact hch b (hmem b hb) c (hmem c hc) hbc
  obtain ⟨pre, post, rfl⟩ := run_infix h.nodup hne hmem hpairs
  cases run with
  | nil => exact absurd rfl hne
  | cons b run =>
    cases pre with
    | nil => exact mergeFrom_run post hrun
    | cons x pre => exact mergeFrom_covers hrun

/-! ## The allocator -/

/-- `b` is met by following the free list. -/
def OnFree (s : State) (b : Nat) : Prop := OnChain (next s.mem) 0 s.freeList b

/-- The block `b` ends exactly where `c` begins. -/
def Adjoins (m : Mem) (b c : Nat) : Prop := b + FREE_BLOCK_SIZE + blockSize m b = c

/-- The `size` of the one block that the blocks of a run would make. -/
def mergedSize (m : Mem) (run : List Nat) : Nat :=
  (run.map fun b => FREE_BLOCK_SIZE + blockSize m b).sum - FREE_BLOCK_SIZE

/-- `coalesce_blocks` returns, and leaves no two free blocks physically adjacent. -/
structure MergesAll (s : State) : Prop where
  returns : ∃ fuel s', coalesceBlocks fuel s = some s'
  apart : ∀ fuel s', coalesceBlocks fuel s = some s' →
    ∀ b c, OnFree s' b → OnFree s' c → ¬ Adjoins s'.mem b c

/-- `kmalloc` returns `NULL` only if no run of physically adjacent free blocks would do. -/
def FailsOnlyWhenFull (s : State) : Prop :=
  ∀ fuel n s', 1 ≤ n → n < 2 ^ 64 → kmalloc fuel s n = some (s', 0) →
    ∀ run, run ≠ [] → (∀ b ∈ run, OnFree s b) → run.IsChain (Adjoins s.mem) →
      mergedSize s.mem run < (n + 7) / 8 * 8

/-- The free list is finite and its blocks are apart, inside the address space. -/
def WellLaid (s : State) : Prop := ∃ bs, FreeList s.mem s.freeList bs ∧ Laid bs

/-- A free block that ends where another one begins has it as its successor on the list. -/
def InOrder (s : State) : Prop :=
  ∀ b c, OnFree s b → OnFree s c → Adjoins s.mem b c → next s.mem b = c

theorem onFree_iff (hl : FreeList s.mem s.freeList bs) :
    OnFree s p ↔ ∃ b ∈ bs, b.addr = p ∧ b.size = blockSize s.mem p := hl.onChain_iff

theorem adjoins_iff (hl : FreeList s.mem s.freeList bs) (hb : b ∈ bs) :
    Adjoins s.mem b.addr c.addr ↔ Meets b c := by
  unfold Adjoins Meets Block.stop
  rw [hl.seg.blockSize_eq hb]

/-- The successor of a block is the block behind it on the list. -/
theorem next_eq_iff (hl : FreeList m p bs) (hlay : Laid bs) (hb : b ∈ bs) (hc : c ∈ bs) :
    next m b.addr = c.addr ↔ [b, c] <:+: bs := by
  constructor
  · intro hn
    obtain ⟨pre, post, rfl⟩ := List.append_of_mem hb
    obtain ⟨r, -, -, -, hpost⟩ := freeSeg_append.mp hl.seg
    cases post with
    | nil => exact absurd (hn.symm.trans hpost) (hl.nonNull c hc)
    | cons d post =>
      have hdc : d = c := hlay.eq_of_addr (by simp) hc (hpost.1.symm.trans hn)
      rw [hdc]
      exact ⟨pre, post, by simp⟩
  · rintro ⟨pre, post, rfl⟩
    rw [List.append_assoc] at hl
    obtain ⟨r, -, -, -, hc', -⟩ := freeSeg_append.mp hl.seg
    exact hc'

theorem inOrder_iff (hl : FreeList s.mem s.freeList bs) (hlay : Laid bs) :
    InOrder s ↔ Chained bs := by
  constructor
  · intro h b hb c hc hbc
    apply (next_eq_iff hl hlay hb hc).mp
    apply h
    · exact (onFree_iff hl).mpr ⟨b, hb, rfl, (hl.seg.blockSize_eq hb).symm⟩
    · exact (onFree_iff hl).mpr ⟨c, hc, rfl, (hl.seg.blockSize_eq hc).symm⟩
    · exact (adjoins_iff hl hb).mpr hbc
  · intro h p q hp hq hpq
    obtain ⟨b, hb, rfl, -⟩ := (onFree_iff hl).mp hp
    obtain ⟨c, hc, rfl, -⟩ := (onFree_iff hl).mp hq
    apply (next_eq_iff hl hlay hb hc).mpr
    exact h b hb c hc ((adjoins_iff hl hb).mp hpq)

theorem mergesAll_iff (hl : FreeList s.mem s.freeList bs) (hlay : Laid bs) :
    MergesAll s ↔ Chained bs := by
  rw [← merge_noNeighbours_iff hlay]
  constructor
  · intro h d hd e he hde
    obtain ⟨fuel, s', hs⟩ := h.returns
    have hl' := (coalesceBlocks_spec hs hl hlay).1
    apply h.apart fuel s' hs d.addr e.addr
    · exact (onFree_iff hl').mpr ⟨d, hd, rfl, (hl'.seg.blockSize_eq hd).symm⟩
    · exact (onFree_iff hl').mpr ⟨e, he, rfl, (hl'.seg.blockSize_eq he).symm⟩
    · exact (adjoins_iff hl' hd).mpr hde
  · intro h
    obtain ⟨s', hs⟩ := coalesceLoop_ends hl hlay (Nat.lt_succ_self _)
    refine ⟨⟨_, s', hs⟩, ?_⟩
    intro fuel s' hs p q hp hq hpq
    have hl' := (coalesceBlocks_spec hs hl hlay).1
    obtain ⟨d, hd, rfl, -⟩ := (onFree_iff hl').mp hp
    obtain ⟨e, he, rfl, -⟩ := (onFree_iff hl').mp hq
    exact h d hd e he ((adjoins_iff hl' hd).mp hpq)

/-- A block found does not make the result `NULL`. -/
theorem payload_ne_null (hlay : Laid bs) (hb : b ∈ bs) : (b.addr + HEADER_SIZE) % 2 ^ 64 ≠ 0 := by
  have h := hlay.bound b hb
  rw [show HEADER_SIZE = 16 from rfl]
  omega

/-- `kmalloc` returns `NULL` when the merged list has no block that is large enough. -/
theorem kmalloc_null (hi : s.initialized = true) (hn : n ≠ 0)
    (hl : FreeList s.mem s.freeList bs) (hlay : Laid bs) (hk : kmalloc fuel s n = some (s', 0)) :
    ∀ d ∈ merge bs, d.size < alignUp n := by
  unfold kmalloc at hk
  rw [if_neg (by simp [hi, hn])] at hk
  obtain ⟨⟨s₁, r⟩, hsb, hk⟩ := Option.bind_eq_some_iff.mp hk
  dsimp only at hk
  unfold searchBlock at hsb
  obtain ⟨b, hb, hsb⟩ := Option.bind_eq_some_iff.mp hsb
  have hfound {cs : List Block} (hcs : Laid cs) (hr : ∃ b ∈ cs, r = b.addr) (h0 : r ≠ 0) :
      False := by
    obtain ⟨b, hb, rfl⟩ := hr
    rw [if_neg h0] at hk
    obtain ⟨s₂, -, hk⟩ := Option.bind_eq_some_iff.mp hk
    exact payload_ne_null hcs hb (congrArg Prod.snd (Option.some.inj hk))
  split at hsb
  · rename_i hb0
    cases hsb
    rcases findBestFit_spec hb hl with ⟨h0, -⟩ | ⟨c, hc, hr, -⟩
    · exact absurd h0 hb0
    · exact (hfound hlay ⟨c, hc, hr⟩ hb0).elim
  · obtain ⟨s₂, hc, hsb⟩ := Option.bind_eq_some_iff.mp hsb
    obtain ⟨b', hb', hsb⟩ := Option.bind_eq_some_iff.mp hsb
    cases hsb
    have hl' := (coalesceBlocks_spec hc hl hlay).1
    rcases findBestFit_spec hb' hl' with ⟨-, hno⟩ | ⟨c, hc, hr, -⟩
    · intro d hd
      have hd' := hlay.merge.bound d hd
      have hmax : SIZE_MAX = 2 ^ 64 - 1 := rfl
      have := hno d hd
      omega
    · refine (hfound hlay.merge ⟨c, hc, hr⟩ ?_).elim
      rw [hr]
      exact hl'.nonNull c hc

/-- Addresses on the free list are addresses of its blocks. -/
theorem exists_blocks (hl : FreeList s.mem s.freeList bs) {ps : List Nat}
    (hmem : ∀ p ∈ ps, OnFree s p) :
    ∃ run : List Block, (∀ b ∈ run, b ∈ bs) ∧ ps = run.map Block.addr := by
  induction ps with
  | nil => exact ⟨[], by simp, rfl⟩
  | cons p ps ih =>
    obtain ⟨b, hb, rfl, -⟩ := (onFree_iff hl).mp (hmem p (by simp))
    obtain ⟨run, hrun, rfl⟩ := ih fun q hq => hmem q (List.mem_cons_of_mem _ hq)
    refine ⟨b :: run, ?_, rfl⟩
    intro c hc
    rcases List.mem_cons.mp hc with rfl | hc
    · exact hb
    · exact hrun c hc

theorem mergedSize_eq (hl : FreeList s.mem s.freeList bs) (hrun : ∀ b ∈ run, b ∈ bs) :
    mergedSize s.mem (run.map Block.addr) = runBytes run - 24 := by
  have hmap : (run.map Block.addr).map (fun a => FREE_BLOCK_SIZE + blockSize s.mem a) =
      run.map fun b => FREE_BLOCK_SIZE + b.size := by
    rw [List.map_map]
    apply List.map_congr_left
    intro b hb
    have hsize := hl.seg.blockSize_eq (hrun b hb)
    rw [Function.comp_apply, hsize]
  unfold mergedSize runBytes
  rw [hmap]

theorem alignUp_le_round (n : Nat) : alignUp n ≤ (n + 7) / 8 * 8 := by
  have h := Nat.mod_le (n + 7) (2 ^ 64)
  unfold alignUp
  omega

/-- **Chained neighbours are merged before a call fails.** -/
theorem failsOnlyWhenFull (hi : s.initialized = true) (hl : FreeList s.mem s.freeList bs)
    (hlay : Laid bs) (hch : Chained bs) : FailsOnlyWhenFull s := by
  intro fuel n s' hn hn64 hk ps hne hmem hps
  have hnull := kmalloc_null hi (by omega) hl hlay hk
  obtain ⟨run, hrun, rfl⟩ := exists_blocks hl hmem
  have hmeets : run.IsChain Meets := by
    apply ((List.isChain_map Block.addr).mp hps).imp_of_mem_imp
    intro b c hb _ hbc
    exact (adjoins_iff hl (hrun b hb)).mp hbc
  have hne' : run ≠ [] := by
    rintro rfl
    exact hne rfl
  obtain ⟨d, hd, hle⟩ := merge_covers hlay hch hne' hrun hmeets
  have hlt := hnull d hd
  have hround := alignUp_le_round n
  rw [mergedSize_eq hl hrun]
  omega

/-- **In every state of every run in which the free list is well laid, merging is complete, and no
call fails for want of merging, exactly when neighbours stand in order on the list.** -/
theorem unfragmented_iff (hrun : Reaches Step Legal (World.init m memStart memEnd) w)
    (hw : WellLaid w.heap) :
    (MergesAll w.heap ∧ FailsOnlyWhenFull w.heap) ↔ InOrder w.heap := by
  obtain ⟨bs, hl, hlay⟩ := hw
  rw [inOrder_iff hl hlay, mergesAll_iff hl hlay]
  constructor
  · rintro ⟨hch, -⟩
    exact hch
  · intro hch
    exact ⟨hch, failsOnlyWhenFull (run_ready hrun) hl hlay hch⟩

/-- Callers that only call `kmalloc` and `kfree`, and only on live pointers. -/
def MallocFree (w : World) (op : Op) : Prop :=
  Legal w op ∧ match op with
    | .kmalloc _ | .kfree _ => True
    | _ => False

instance (w : World) (op : Op) : Decidable (MallocFree w op) := by
  delta MallocFree
  exact match op with
  | .kmalloc _ | .kcalloc _ _ | .krealloc _ _ | .kfree _ | .write _ _ _ => inferInstance

theorem mallocFree_run {ops : List Op} {w w' : World}
    (h : exec (step fuel) (fun w op => decide (MallocFree w op)) w ops = some w') :
    Reaches Step MallocFree w w' :=
  reaches_of_exec (fun _ _ => of_decide_eq_true) (fun _ _ _ hs => ⟨fuel, hs⟩) h

theorem unfragmented_iff_run : ∃ w, w.heap.freeList = 4096 ∧ next w.heap.mem 4096 = 4624 ∧
    Reaches Step Legal (World.init (fun _ => 0) 4096 8192) w ∧
    MergesAll w.heap ∧ FailsOnlyWhenFull w.heap := by
  have hx : (exec (step 8) (guarded 8) (World.init (fun _ => 0) 4096 8192)
      [.kmalloc 176, .kmalloc 300, .kfree 4112]).map (fun w => (w.heap.freeList,
        next w.heap.mem 4096, blockSize w.heap.mem 4096, next w.heap.mem 4624,
        blockSize w.heap.mem 4624)) = some (4096, 4624, 171, 0, 3544) := by decide +kernel
  obtain ⟨w, hw, hobs⟩ := Option.map_eq_some_iff.mp hx
  simp only [Prod.mk.injEq] at hobs
  obtain ⟨hf, hn, hs, hn', hs'⟩ := hobs
  have hrun := (guarded_run hw).mono fun _ _ hg => hg.1
  have hl : FreeList w.heap.mem w.heap.freeList [⟨4096, 171⟩, ⟨4624, 3544⟩] := by
    rw [hf]
    refine freeList_cons.mpr ⟨rfl, by decide, hs, ?_⟩
    rw [hn]
    refine freeList_cons.mpr ⟨rfl, by decide, hs', ?_⟩
    rw [hn']
    exact freeList_nil.mpr rfl
  have hlay : Laid [⟨4096, 171⟩, ⟨4624, 3544⟩] := ⟨by decide, by decide⟩
  have hch : Chained [⟨4096, 171⟩, ⟨4624, 3544⟩] := by
    intro b hb c hc
    simp only [List.mem_cons, List.not_mem_nil, or_false] at hb hc
    rcases hb with rfl | rfl <;> rcases hc with rfl | rfl <;> intro h <;> cases h
  obtain ⟨h1, h2⟩ := (unfragmented_iff hrun ⟨_, hl, hlay⟩).mpr ((inOrder_iff hl hlay).mpr hch)
  exact ⟨w, hf, hn, hrun, h1, h2⟩

/-- The block at 4168 ends where the one at 4232 begins but stands behind it on the list: the two
are not joined, and a request for 96 bytes is refused although they have 99 together. -/
theorem fragmented : ∃ w, Reaches Step MallocFree (World.init (fun _ => 0) 4096 5120) w ∧
    WellLaid w.heap ∧ ¬ MergesAll w.heap ∧ ¬ FailsOnlyWhenFull w.heap := by
  have hx : (exec (step 8) (fun w op => decide (MallocFree w op))
      (World.init (fun _ => 0) 4096 5120) [.kmalloc 48, .kfree 4112, .kmalloc 56, .kfree 4112,
        .kmalloc 40, .kmalloc 112]).bind (fun w => (kmalloc 8 w.heap 96).map
          fun r => ((w.heap.freeList, next w.heap.mem 4232, blockSize w.heap.mem 4232),
            (next w.heap.mem 4168, blockSize w.heap.mem 4168), r.2)) =
      some ((4232, 4168, 35), (0, 40), 0) := by decide +kernel
  obtain ⟨w, hw, hobs⟩ := Option.bind_eq_some_iff.mp hx
  obtain ⟨⟨s', p⟩, hk, hobs⟩ := Option.map_eq_some_iff.mp hobs
  simp only [Prod.mk.injEq] at hobs
  obtain ⟨⟨hf, hn, hs⟩, ⟨hn', hs'⟩, hp⟩ := hobs
  subst hp
  have hl : FreeList w.heap.mem w.heap.freeList [⟨4232, 35⟩, ⟨4168, 40⟩] := by
    rw [hf]
    refine freeList_cons.mpr ⟨rfl, by decide, hs, ?_⟩
    rw [hn]
    refine freeList_cons.mpr ⟨rfl, by decide, hs', ?_⟩
    rw [hn']
    exact freeList_nil.mpr rfl
  have hlay : Laid [⟨4232, 35⟩, ⟨4168, 40⟩] := ⟨by decide, by decide⟩
  refine ⟨w, mallocFree_run hw, ⟨_, hl, hlay⟩, ?_, ?_⟩
  · intro h
    have hpair := (mergesAll_iff hl hlay).mp h ⟨4168, 40⟩ (by simp) ⟨4232, 35⟩ (by simp) rfl
    exact absurd hpair (by decide)
  · intro h
    have hfree : ∀ b ∈ [4168, 4232], OnFree w.heap b := by
      intro b hb
      apply (onFree_iff hl).mpr
      rcases List.mem_cons.mp hb with rfl | hb
      · exact ⟨⟨4168, 40⟩, by simp, rfl, hs'.symm⟩
      · rw [List.mem_singleton.mp hb]
        exact ⟨⟨4232, 35⟩, by simp, rfl, hs.symm⟩
    have hrun : [4168, 4232].IsChain (Adjoins w.heap.mem) := by
      apply List.isChain_cons_cons.mpr
      refine ⟨?_, List.isChain_singleton _⟩
      unfold Adjoins
      rw [hs']
      rfl
    have hlt := h 8 96 s' (by decide) (by decide) hk [4168, 4232] (by simp) hfree hrun
    unfold mergedSize at hlt
    simp only [List.map_cons, List.map_nil, hs, hs'] at hlt
    exact absurd hlt (by decide)

end OSCompas.Memory
