import OSCompas.Memory.Safety

/-!
# What `krealloc` leaves in the payloads

`krealloc` byte by byte: the copy, and what `kmalloc` and `kfree` do not touch around it.

* `KeepsData` — what is asked of a call: the bytes are where the result points to, or still where
  they were, and nobody else's are touched.

Principal results: `kmalloc_keeps`, `kfree_keeps`, `krealloc_data` and `krealloc_keeps_data`.
-/

set_option autoImplicit false

namespace OSCompas.Memory

open ByteMemory Chain Runs

variable {m : Mem} {n p q i j fuel requested memStart memEnd : Nat} {s s' : State} {w w' : World}
variable {bs cs : List Block} {l l' : Layout} {pre post : List Held} {x y : Held} {a : Allocation}

/-! ## What the calls leave alone -/

/-- The bytes of an allocation are the same. -/
def SameBytes (m m' : Mem) (x : Held) : Prop := AgreeOn m m' x.addr (16 + x.size)

theorem SameBytes.trans {m' m'' : Mem} (h : SameBytes m m' x) (h' : SameBytes m' m'' x) :
    SameBytes m m'' x :=
  AgreeOn.trans h h'

/-- A byte of the payload. -/
theorem SameBytes.byte {m' : Mem} (h : SameBytes m m' x) (hi : i < x.size) :
    m' (x.addr + HEADER_SIZE + i) = m (x.addr + HEADER_SIZE + i) := by
  have h16 : HEADER_SIZE = 16 := rfl
  exact h _ (by omega) (by omega)

/-- What only touches free blocks leaves every allocation alone. -/
theorem sameBytes_of_untouched {m' : Mem} (h : HeapInv s l) (hx : x ∈ l.held)
    (hout : Untouched l.free m m') : SameBytes m m' x := by
  have hbound := h.held_bound hx
  have hend := h.heapEnd_lt
  exact hout x.span (by simp [Held.span]) (by show x.addr + (16 + x.size) ≤ 2 ^ 64; omega)
    fun b hb => h.apart_block_held hb hx

theorem kmalloc_keeps (h : HeapInv s l) (hg : Grows s l s' l') (hx : x ∈ l.held) :
    SameBytes s.mem s'.mem x :=
  sameBytes_of_untouched h hx hg.outside

/-- **`kfree` leaves every other allocation alone.** -/
theorem kfree_keeps (h : HeapInv s ⟨bs, pre ++ x :: post⟩)
    (hk : kfree fuel s (x.addr + HEADER_SIZE) = some s') (hret : Returns s bs (pre ++ post) x)
    (hy : y ∈ pre ++ post) : SameBytes s.mem s'.mem y := by
  have hx : x ∈ pre ++ x :: post := by simp
  have hyx : y ∈ pre ++ x :: post := mem_middle_of_mem hy
  have hgive := giveBack_inv h hret
  rw [kfree_eq h hx] at hk
  -- the header that `kfree` writes lies in the bytes of `x`
  have hapart := h.held_apart hy
  have hpos := (h.held x hx).pos
  have hbound := h.held_bound hyx
  have hend := h.heapEnd_lt
  have hfirst : SameBytes s.mem (giveBack s x.addr).mem y :=
    agreeOn_freedMem (h.held_header hx) (by omega) (by omega)
  have hframe := (coalesceBlocks_spec hk hgive.freeList hgive.laid).2.1
  exact hfirst.trans (sameBytes_of_untouched hgive hy hframe.outside)

/-- A byte of a copy. -/
theorem copy_byte {W d t k : Nat} (hd : d + k ≤ W) (ht : t + k ≤ W) (hi : i < k) :
    copy W m d t k (d + i) = m (t + i) := by
  have hoff : offset W d (d + i) = i := by
    rw [offset_of_le (by omega) (by omega)]
    omega
  unfold copy
  rw [hoff, if_pos hi, Nat.mod_eq_of_lt (by omega)]

/-! ## `krealloc` -/

/-- The copy puts the bytes of `x` at the front of `y` and leaves the other allocations alone. -/
theorem copied_data (h : HeapInv s l) (hx : x ∈ l.held) (hy : y ∈ l.held)
    (hjx : j ≤ x.size) (hjy : j ≤ y.size) :
    (∀ i < j, copy (2 ^ 64) s.mem (y.addr + HEADER_SIZE) (x.addr + HEADER_SIZE) j
      (y.addr + HEADER_SIZE + i) = s.mem (x.addr + HEADER_SIZE + i)) ∧
    ∀ z ∈ l.held, z ≠ y →
      SameBytes s.mem (copy (2 ^ 64) s.mem (y.addr + HEADER_SIZE) (x.addr + HEADER_SIZE) j) z := by
  have hxb := h.held_bound hx
  have hyb := h.held_bound hy
  have hend := h.heapEnd_lt
  have h16 : HEADER_SIZE = 16 := rfl
  constructor
  · intro i hi
    exact copy_byte (by omega) (by omega) hi
  · intro z hz hzy
    have hzb := h.held_bound hz
    have hapart : y.addr + (16 + y.size) ≤ z.addr ∨ z.addr + (16 + z.size) ≤ y.addr :=
      Held.apart_iff.mp (h.apart_held hy hz (Ne.symm hzy))
    exact agreeOn_copy (by omega) (by omega) (by omega)

/-- **`krealloc` keeps the bytes**: those of `x` behind the result, and those of the others. -/
theorem krealloc_data (h : HeapInv s ⟨bs, pre ++ x :: post⟩)
    (hk : krealloc fuel s (x.addr + HEADER_SIZE) n = some (s', p)) (hn : n ≠ 0)
    (hok : ReallocOk s bs (pre ++ post) x n) :
    (∀ y ∈ pre ++ post, SameBytes s.mem s'.mem y) ∧
      (p = 0 → SameBytes s.mem s'.mem x) ∧
      (p ≠ 0 → ∀ i < min x.size n, s'.mem (p + i) = s.mem (x.addr + HEADER_SIZE + i)) := by
  have hx : x ∈ pre ++ x :: post := by simp
  have hsub : ∀ y ∈ pre ++ post, y ∈ pre ++ x :: post := fun _ => mem_middle_of_mem
  have h24 := h.held_header hx
  unfold krealloc at hk
  rw [if_neg (by simp), if_neg hn, blockFromPtr_add (by omega)] at hk
  simp only [(h.held x hx).size_eq] at hk
  split at hk
  · -- the block is large enough already
    cases hk
    exact ⟨fun y _ => AgreeOn.refl _ _ _, fun _ => AgreeOn.refl _ _ _, fun _ i _ => rfl⟩
  · rename_i hlt
    obtain ⟨hso, hret⟩ := hok.2 hn (Nat.lt_of_not_le hlt)
    obtain ⟨⟨s₁, r⟩, hm, hk⟩ := Option.bind_eq_some_iff.mp hk
    simp only at hk
    rcases kmalloc_spec h hm (Nat.le_refl n) (.inr hso) with
      ⟨rfl, cs, hg⟩ | ⟨cs, y, hg, hya, -, hy⟩
    · -- there is no other block
      rw [if_pos rfl] at hk
      cases hk
      exact ⟨fun z hz => kmalloc_keeps h hg (hsub z hz), fun _ => kmalloc_keeps h hg hx,
        fun hp => absurd rfl hp⟩
    · -- the bytes are copied to the new block, and the old one is given back
      obtain ⟨rfl, hyr⟩ := Allocation.mk.inj hya
      have hret := hret.resolve_left fun hno => absurd (kmalloc_fails h hm hno) (by simp)
      have hym : y ∈ y :: (pre ++ x :: post) := List.mem_cons_self
      have hxm : x ∈ y :: (pre ++ x :: post) := List.mem_cons_of_mem _ hx
      have hyn := (hg.inv.held y hym).requested_le
      have hsize : headerSize s₁.mem x.addr = x.size := (hg.inv.held x hxm).size_eq
      have hne : ∀ z ∈ pre ++ x :: post, z ≠ y := by
        intro z hz hzy
        have hfront : HeapInv s₁ ⟨cs, [] ++ y :: (pre ++ x :: post)⟩ := hg.inv
        exact hfront.held_ne hz (congrArg Held.addr hzy)
      rw [if_neg (by simp)] at hk
      obtain ⟨s₂, hf, hk⟩ := Option.bind_eq_some_iff.mp hk
      cases hk
      rw [hsize] at hf
      have hj : (if x.size < n then x.size else n) = min x.size n := by
        split <;> omega
      rw [hj] at hf
      obtain ⟨hinv, hret'⟩ := krealloc_copied (q := x.addr + HEADER_SIZE)
        (j := min x.size n) h hg (by omega) hy hret
      obtain ⟨hfront, hothers⟩ := copied_data (j := min x.size n) hg.inv hxm hym
        (Nat.min_le_left _ _) (by omega)
      have hyfree := kfree_keeps (y := y) hinv hf hret' (by simp)
      refine ⟨fun z hz => ?_, fun hp => absurd hp (by simp), fun _ i hi => ?_⟩
      · have h₁ := kmalloc_keeps h hg (hsub z hz)
        have h₂ := hothers z (List.mem_cons_of_mem _ (hsub z hz)) (hne z (hsub z hz))
        have h₃ := kfree_keeps (y := z) hinv hf hret' (by
          rw [List.cons_append]
          exact List.mem_cons_of_mem _ hz)
        exact (h₁.trans h₂).trans h₃
      · rw [hyfree.byte (by omega)]
        exact (hfront i hi).trans ((kmalloc_keeps h hg hx).byte (by omega))

/-! ## Runs -/

/-- What is asked of a call `krealloc(p, n)` on the allocation `a`: on failure `a` is still held
with its bytes; otherwise the result has the bytes of `a` as far as both go, and `n` bytes are held
there; every other allocation is held on with its bytes, and all payloads are safe. -/
structure KeepsData (w w' : World) (a : Allocation) (n q : Nat) : Prop where
  failed : q = 0 → a ∈ w'.live ∧
    ∀ i < a.requested, w'.heap.mem (a.ptr + i) = w.heap.mem (a.ptr + i)
  moved : q ≠ 0 → ∀ i < min a.requested n, w'.heap.mem (q + i) = w.heap.mem (a.ptr + i)
  usable : q ≠ 0 → ⟨q, n⟩ ∈ w'.live
  others : ∀ b ∈ w.live, b.ptr ≠ a.ptr → b ∈ w'.live ∧
    ∀ i < b.requested, w'.heap.mem (b.ptr + i) = w.heap.mem (b.ptr + i)
  safe : PayloadsSafe w'

/-- **In every guarded run `krealloc` keeps the data.** -/
theorem krealloc_keeps_data (he : memEnd < 2 ^ 64) (hr : RegionOk memStart memEnd)
    (hrun : Reaches Step Guarded (World.init m memStart memEnd) w) (ha : a ∈ w.live) (hn : 1 ≤ n)
    (hg : Guarded w (.krealloc a.ptr n)) :
    (∃ w', Step w (.krealloc a.ptr n) w') ∧
      ∀ fuel w' q, step fuel w (.krealloc a.ptr n) = some w' →
        krealloc fuel w.heap a.ptr n = some (w'.heap, q) → KeepsData w w' a n q := by
  obtain ⟨⟨bs, hs⟩, h, -, -⟩ := run_holds (init_holds he hr) hrun
  refine ⟨?_, fun fuel w' q hstep hk => ?_⟩
  · obtain ⟨w', hstep⟩ := step_ends h hg (Nat.lt_succ_self _)
    exact ⟨w', _, hstep⟩
  · obtain ⟨l', h', -, -⟩ := step_moved h hg hstep
    have hlive := ha
    rw [h.live] at hlive
    obtain ⟨x, hx, rfl⟩ := List.mem_map.mp hlive
    obtain ⟨pre, post, rfl⟩ := List.append_of_mem hx
    have hn0 : n ≠ 0 := Nat.one_le_iff_ne_zero.mp hn
    have hreq := (h.inv.held x hx).requested_le
    obtain ⟨hothers, hfailed, hmoved⟩ := krealloc_data h.inv hk hn0 (h.reallocOk hg.2)
    have hlive' : w'.live = if q = 0 then w.live else ⟨q, n⟩ :: w.drop x.allocation.ptr := by
      simp only [step, hk, Option.map_some, Option.some.injEq] at hstep
      rw [← hstep]
      simp [hn0]
    refine ⟨fun hq => ?_, fun hq i hi => ?_, fun hq => ?_, fun b hb hne => ?_, h'.payloadsSafe⟩
    · rw [hlive', if_pos hq]
      exact ⟨ha, fun i hi => (hfailed hq).byte (Nat.lt_of_lt_of_le hi hreq)⟩
    · have hi' : i < min x.requested n := hi
      exact hmoved hq i (by omega)
    · rw [hlive', if_neg hq]
      exact List.mem_cons_self
    · constructor
      · rw [hlive']
        split
        · exact hb
        · refine List.mem_cons_of_mem _ (List.mem_filter.mpr ⟨hb, ?_⟩)
          simpa using hne
      · rw [h.live] at hb
        obtain ⟨y, hy, rfl⟩ := List.mem_map.mp hb
        have hyrest : y ∈ pre ++ post := by
          simp only [List.mem_append, List.mem_cons] at hy ⊢
          rcases hy with hy | rfl | hy
          · exact .inl hy
          · exact absurd rfl hne
          · exact .inr hy
        have hyreq := (h.inv.held y hy).requested_le
        intro i hi
        exact (hothers y hyrest).byte (Nat.lt_of_lt_of_le hi hyreq)

theorem krealloc_keeps_data_run :
    ∃ w w' q, Reaches Step Guarded (World.init (fun _ => 0) 4096 8192) w ∧
      ⟨4112, 176⟩ ∈ w.live ∧ Step w (.krealloc 4112 300) w' ∧ q ≠ 0 ∧
    KeepsData w w' ⟨4112, 176⟩ 300 q := by
  have hx : (exec (step 8) (guarded 8) (World.init (fun _ => 0) 4096 8192)
      [.kmalloc 176, .kmalloc 100, .write 4112 5 7]).bind (fun w =>
        (krealloc 8 w.heap 4112 300).map fun r => (w.live, searchOk 8 w.heap 300 300,
          fitsBack 8 w 4112, r.2)) =
      some ([⟨4312, 100⟩, ⟨4112, 176⟩], true, true, 4440) := by decide +kernel
  obtain ⟨w, hw, hx⟩ := Option.bind_eq_some_iff.mp hx
  obtain ⟨⟨s', q⟩, hk, hobs⟩ := Option.map_eq_some_iff.mp hx
  simp only [Prod.mk.injEq] at hobs
  obtain ⟨hl, hsearch, hfits, hq⟩ := hobs
  have hrun := guarded_run hw
  have ha : (⟨4112, 176⟩ : Allocation) ∈ w.live := by simp [hl]
  have hg : Guarded w (.krealloc 4112 300) := by
    refine ⟨⟨.inr ⟨_, ha, rfl⟩, by decide⟩, ?_⟩
    simp only [OpOk]
    rw [if_neg (by decide), if_neg (by decide)]
    exact .inr ⟨searchOk_spec hsearch, .inr (fitsBack_spec hfits)⟩
  obtain ⟨-, hkeeps⟩ := krealloc_keeps_data (by decide) (.inr (by decide)) hrun ha (by decide) hg
  have hstep : step 8 w (.krealloc 4112 300) = some ⟨s', ⟨q, 300⟩ :: w.drop 4112⟩ := by
    simp [step, hk, hq]
  exact ⟨w, _, q, hrun, ha, ⟨8, hstep⟩, by rw [hq]; decide, hkeeps 8 _ q hstep hk⟩

/-- After a free the list covers the second allocation; the rest of the block that `krealloc` takes
is cut off in its payload, before the bytes are copied. -/
theorem krealloc_loses_data : ¬ ∀ m memStart memEnd w a n fuel w' q, memStart ≤ memEnd →
    memEnd < 2 ^ 64 → Reaches Step Legal (World.init m memStart memEnd) w → a ∈ w.live → 1 ≤ n →
    Legal w (.krealloc a.ptr n) → step fuel w (.krealloc a.ptr n) = some w' →
    krealloc fuel w.heap a.ptr n = some (w'.heap, q) → KeepsData w w' a n q := by
  intro hall
  have hx : (exec (step 8) (fun w op => decide (Legal w op)) (World.init (fun _ => 0) 4096 8192)
      [.kmalloc 8, .kmalloc 8, .kfree 4112, .write 4144 0 7]).bind (fun w =>
        (krealloc 8 w.heap 4144 20).map fun r =>
          (w.live, w.heap.mem 4144, r.1.mem 4112, r.2)) =
      some ([⟨4144, 8⟩], 7, 64, 4112) := by decide +kernel
  obtain ⟨w, hw, hx⟩ := Option.bind_eq_some_iff.mp hx
  obtain ⟨⟨s', q⟩, hk, hobs⟩ := Option.map_eq_some_iff.mp hx
  simp only [Prod.mk.injEq] at hobs
  obtain ⟨hl, hold, hnew, rfl⟩ := hobs
  have ha : (⟨4144, 8⟩ : Allocation) ∈ w.live := by simp [hl]
  have hstep : step 8 w (.krealloc 4144 20) = some ⟨s', ⟨4112, 20⟩ :: w.drop 4144⟩ := by
    simp [step, hk]
  have hkeeps := hall _ 4096 8192 w ⟨4144, 8⟩ 20 8 _ 4112 (by decide) (by decide) (legal_run hw) ha
    (by decide) ⟨.inr ⟨_, ha, rfl⟩, by decide⟩ hstep hk
  have hbyte : s'.mem 4112 = w.heap.mem 4144 := hkeeps.moved (by decide) 0 (by decide)
  rw [hnew, hold] at hbyte
  exact absurd hbyte (by decide)

end OSCompas.Memory
