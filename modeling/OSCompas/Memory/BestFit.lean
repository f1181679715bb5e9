import OSCompas.Memory.Safety
import Mathlib.Data.List.Induction

/-!
# The best fit

`find_best_fit` on any free list: the running best after each block, and what it is at the end.

* `better` — one turn of the loop, on blocks;
* `FirstBest` — the first block in list order among the smallest that are large enough;
* `bestFitWhole` — the search without the early exit.

Principal results: `foldl_better`, `bestFitLoop_eq` and `findBestFit_optimal`.
-/

set_option autoImplicit false

namespace OSCompas.Memory

open ByteMemory Chain

variable {m : Mem} {p size fuel : Nat} {s : State} {bs pre post : List Block} {b c : Block}
  {best : Option Block}

/-! ## On lists of blocks -/

/-- The running best after the block `c`. -/
def better (size : Nat) (best : Option Block) (c : Block) : Option Block :=
  if size ≤ c.size ∧ c.size < best.elim SIZE_MAX Block.size then some c else best

/-- `b` is large enough; those in front of it that are, are larger, and no other is smaller. -/
def FirstBest (size : Nat) (bs : List Block) (b : Block) : Prop :=
  size ≤ b.size ∧ ∃ pre post, bs = pre ++ b :: post ∧
    (∀ c ∈ pre, size ≤ c.size → b.size < c.size) ∧ ∀ c ∈ post, size ≤ c.size → b.size ≤ c.size

/-- What the running best says of the blocks visited. -/
def Visited (size : Nat) (bs : List Block) : Option Block → Prop
  | none => ∀ b ∈ bs, b.size < size
  | some b => FirstBest size bs b

/-- A block that is larger than the best, or too small, does not count. -/
theorem FirstBest.append (h : FirstBest size bs b) (hc : size ≤ c.size → b.size ≤ c.size) :
    FirstBest size (bs ++ [c]) b := by
  obtain ⟨hb, pre, post, rfl, hpre, hpost⟩ := h
  refine ⟨hb, pre, post ++ [c], by simp, hpre, fun d hd => ?_⟩
  rcases List.mem_append.mp hd with hd | hd
  · exact hpost d hd
  · rw [List.mem_singleton.mp hd]
    exact hc

/-- A block that is smaller than the best takes its place. -/
theorem FirstBest.replace (h : FirstBest size bs b) (hc : size ≤ c.size) (hlt : c.size < b.size) :
    FirstBest size (bs ++ [c]) c := by
  obtain ⟨-, pre, post, rfl, hpre, hpost⟩ := h
  refine ⟨hc, pre ++ b :: post, [], rfl, fun d hd hfit => ?_, by simp⟩
  rcases List.mem_append.mp hd with hd | hd
  · exact hlt.trans (hpre d hd hfit)
  · rcases List.mem_cons.mp hd with rfl | hd
    · exact hlt
    · exact lt_of_lt_of_le hlt (hpost d hd hfit)

/-- One turn of the loop. -/
theorem Visited.better (h : Visited size bs best) (hc : c.size < SIZE_MAX) :
    Visited size (bs ++ [c]) (better size best c) := by
  unfold Memory.better
  cases best with
  | none =>
    by_cases hfit : size ≤ c.size
    · have hboth : size ≤ c.size ∧ c.size < Option.elim none SIZE_MAX Block.size := ⟨hfit, hc⟩
      rw [if_pos hboth]
      refine ⟨hfit, bs, [], rfl, fun d hd hd' => ?_, by simp⟩
      exact absurd (h d hd) (Nat.not_lt.mpr hd')
    · rw [if_neg fun hboth => hfit hboth.1]
      intro d hd
      rcases List.mem_append.mp hd with hd | hd
      · exact h d hd
      · rw [List.mem_singleton.mp hd]
        exact Nat.lt_of_not_le hfit
  | some b =>
    by_cases hboth : size ≤ c.size ∧ c.size < b.size
    · have hif : size ≤ c.size ∧ c.size < (some b).elim SIZE_MAX Block.size := hboth
      rw [if_pos hif]
      exact FirstBest.replace h hboth.1 hboth.2
    · have hif : ¬ (size ≤ c.size ∧ c.size < (some b).elim SIZE_MAX Block.size) := hboth
      rw [if_neg hif]
      exact FirstBest.append h fun hfit => Nat.le_of_not_lt fun hlt => hboth ⟨hfit, hlt⟩

/-- **The running best is right after every block.** -/
theorem foldl_better (size : Nat) (h : ∀ b ∈ bs, b.size < SIZE_MAX) :
    Visited size bs (bs.foldl (better size) none) := by
  induction bs using List.reverseRecOn with
  | nil => simp [Visited]
  | append_singleton bs c ih =>
    rw [List.foldl_append, List.foldl_cons, List.foldl_nil]
    exact (ih fun b hb => h b (List.mem_append_left _ hb)).better (h c (by simp))

/-- An exact fit stays the best. -/
theorem foldl_exact (h : b.size = size) : bs.foldl (better size) (some b) = some b := by
  induction bs with
  | nil => rfl
  | cons c bs ih =>
    have hno : ¬ (size ≤ c.size ∧ c.size < (some b).elim SIZE_MAX Block.size) := by
      simp only [Option.elim_some, h]
      omega
    rw [List.foldl_cons, better, if_neg hno, ih]

/-! ## The loop -/

/-- The loop of `find_best_fit` without the `break`. -/
def bestFitLoopWhole (m : Mem) (size : Nat) : Nat → Nat → Nat → Nat → Option Nat
  | 0, _, _, _ => none
  | fuel + 1, curr, best, bestSize =>
    if curr = 0 then some best else
    if size ≤ blockSize m curr ∧ blockSize m curr < bestSize then
      bestFitLoopWhole m size fuel (next m curr) curr (blockSize m curr)
    else bestFitLoopWhole m size fuel (next m curr) best bestSize

/-- The search to the end of the list. -/
def bestFitWhole (fuel : Nat) (s : State) (size : Nat) : Option Nat :=
  bestFitLoopWhole s.mem size fuel s.freeList 0 SIZE_MAX

/-- The address of the running best. -/
def bestAddr (best : Option Block) : Nat := best.elim 0 Block.addr

theorem bestFitLoopWhole_eq (size : Nat) (best : Option Block) (hl : FreeList m p bs)
    (hf : bs.length < fuel) :
    bestFitLoopWhole m size fuel p (bestAddr best) (best.elim SIZE_MAX Block.size) =
      some (bestAddr (bs.foldl (better size) best)) := by
  induction bs generalizing fuel p best with
  | nil =>
    obtain ⟨fuel, rfl⟩ := Nat.exists_eq_add_one_of_ne_zero (Nat.ne_of_gt hf)
    rw [bestFitLoopWhole, if_pos (freeList_nil.mp hl)]
    rfl
  | cons c bs ih =>
    obtain ⟨fuel, rfl⟩ := Nat.exists_eq_add_one_of_ne_zero (Nat.ne_of_gt (Nat.zero_lt_of_lt hf))
    obtain ⟨rfl, hc, hsize, hrest⟩ := freeList_cons.mp hl
    have hf' : bs.length < fuel := Nat.lt_of_succ_lt_succ hf
    rw [bestFitLoopWhole, if_neg hc, hsize, List.foldl_cons, better]
    split
    · exact ih (some c) hrest hf'
    · exact ih best hrest hf'

/-- **The loop keeps the running best**, and may stop at an exact fit. -/
theorem bestFitLoop_eq (size : Nat) (best : Option Block) (hl : FreeList m p bs)
    (hf : bs.length < fuel) :
    bestFitLoop m size fuel p (bestAddr best) (best.elim SIZE_MAX Block.size) =
      some (bestAddr (bs.foldl (better size) best)) := by
  induction bs generalizing fuel p best with
  | nil =>
    obtain ⟨fuel, rfl⟩ := Nat.exists_eq_add_one_of_ne_zero (Nat.ne_of_gt hf)
    rw [bestFitLoop, if_pos (freeList_nil.mp hl)]
    rfl
  | cons c bs ih =>
    obtain ⟨fuel, rfl⟩ := Nat.exists_eq_add_one_of_ne_zero (Nat.ne_of_gt (Nat.zero_lt_of_lt hf))
    obtain ⟨rfl, hc, hsize, hrest⟩ := freeList_cons.mp hl
    have hf' : bs.length < fuel := Nat.lt_of_succ_lt_succ hf
    rw [bestFitLoop, if_neg hc, hsize, List.foldl_cons, better]
    split
    · by_cases hexact : c.size = size
      · rw [if_pos hexact, foldl_exact hexact]
        rfl
      · rw [if_neg hexact]
        exact ih (some c) hrest hf'
    · exact ih best hrest hf'

/-! ## The property -/

/-- A block of a free list is not at the address 0. -/
theorem FreeList.addr_ne (hl : FreeList m p bs) (hb : b ∈ bs) : b.addr ≠ 0 := by
  induction bs generalizing p with
  | nil => cases hb
  | cons c bs ih =>
    obtain ⟨rfl, hc, -, hrest⟩ := freeList_cons.mp hl
    rcases List.mem_cons.mp hb with rfl | hb
    · exact hc
    · exact ih hrest hb

/-- **`find_best_fit` is optimal**: it ends, it returns `NULL` exactly if no block is large enough,
and otherwise the first of the smallest ones that are; without the early exit it returns the same. -/
theorem findBestFit_optimal (hl : FreeList s.mem s.freeList bs)
    (hsize : ∀ b ∈ bs, b.size < SIZE_MAX) (hfuel : bs.length < fuel) (size : Nat) :
    ∃ r, findBestFit fuel s size = some r ∧ bestFitWhole fuel s size = some r ∧
      (r = 0 ↔ ∀ b ∈ bs, b.size < size) ∧ (r ≠ 0 → ∃ b, FirstBest size bs b ∧ r = b.addr) := by
  have hloop := bestFitLoop_eq size none hl hfuel
  have hwhole := bestFitLoopWhole_eq size none hl hfuel
  have hbest := foldl_better size hsize
  refine ⟨_, hloop, hwhole, ?_⟩
  cases hb : bs.foldl (better size) none with
  | none =>
    rw [hb] at hbest
    exact ⟨iff_of_true rfl hbest, fun h => absurd rfl h⟩
  | some b =>
    rw [hb] at hbest
    have hb' : FirstBest size bs b := hbest
    obtain ⟨hfit, pre, post, hbs, -, -⟩ := id hb'
    have hmem : b ∈ bs := by simp [hbs]
    have hne : bestAddr (some b) ≠ 0 := hl.addr_ne hmem
    refine ⟨iff_of_false hne fun hno => ?_, fun _ => ⟨b, hb', rfl⟩⟩
    exact absurd (hno b hmem) (Nat.not_lt.mpr hfit)

/-- A free list of three blocks, of 40, 24 and 24 bytes. -/
def threeBlocks : State where
  mem := setNext (setBlockSize (setNext (setBlockSize (setNext (setBlockSize (fun _ => 0)
    4096 40) 4096 4160) 4160 24) 4160 4224) 4224 24) 4224 0
  freeList := 4096
  totalMemory := 192
  freeMemory := 88
  usedMemory := 0
  allocCount := 0
  freeCount := 0
  heapStart := 4096
  heapEnd := 4288
  initialized := true

/-- Of two smallest blocks the first one is returned. -/
theorem findBestFit_threeBlocks : ∃ r, r = 4160 ∧ findBestFit 4 threeBlocks 20 = some r ∧
    bestFitWhole 4 threeBlocks 20 = some r ∧
    ∃ b, FirstBest 20 [⟨4096, 40⟩, ⟨4160, 24⟩, ⟨4224, 24⟩] b ∧ r = b.addr := by
  have hl : FreeList threeBlocks.mem threeBlocks.freeList
      [⟨4096, 40⟩, ⟨4160, 24⟩, ⟨4224, 24⟩] :=
    walk_spec (show walk _ 8 4096 = _ by decide +kernel)
  obtain ⟨r, hr, hwhole, -, hbest⟩ :=
    findBestFit_optimal hl (by decide) (show 3 < 4 by decide) 20
  have hfind : findBestFit 4 threeBlocks 20 = some 4160 := by decide +kernel
  have hr' : r = 4160 := Option.some.inj (hr.symm.trans hfind)
  exact ⟨r, hr', hr, hwhole, hbest (by rw [hr']; decide)⟩

end OSCompas.Memory
