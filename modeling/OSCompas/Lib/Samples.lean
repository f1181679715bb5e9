import Mathlib.Data.Nat.Find
import Mathlib.Order.Nat
import Mathlib.Tactic.Common

/-!
# A line that is sampled

The levels that a line has when it is sampled, and programs that take one sample after the other.
Nothing here names a program.

* `await` — sample until the level is there, with so many samples at most;
* `poll` — as many samples as are left, and one more when none was right;
* `Fall`, `After`, `Falls` — a low sample after a high one; the place after so many of them; there
  are so many of them from a place on;
* `Takes` — a program that reads up to the `n`-th fall.

Principal results: `exists_after_iff`, `Takes.bind` and `Takes.returns_iff`.
-/

set_option autoImplicit false

namespace OSCompas.Samples

/-- The place after the first sample from `i` on that finds the level. -/
def await (w : Nat → Bool) (b : Bool) : Nat → Nat → Option Nat
  | 0, _ => none
  | fuel + 1, i => if w i = b then some (i + 1) else await w b fuel (i + 1)

/-- The same with a counter; the loop ends with another sample when the counter has run out. -/
def poll (w : Nat → Bool) (b : Bool) : Nat → Nat → Bool × Nat
  | 0, i => (false, i + 1)
  | left + 1, i => if w i = b then (true, i + 1) else poll w b left (i + 1)

variable {α β : Type} {w : Nat → Bool} {b : Bool} {fuel i j k l m n : Nat}

/-! ## The first sample of a level -/

/-- `k` is the first place from `i` on with the level. -/
structure First (w : Nat → Bool) (b : Bool) (i k : Nat) : Prop where
  le : i ≤ k
  hit : w k = b
  before : ∀ l, i ≤ l → l < k → w l ≠ b

theorem First.here (h : w i = b) : First w b i i :=
  ⟨le_refl i, h, fun _ h₁ h₂ => absurd h₂ (Nat.not_lt.mpr h₁)⟩

theorem First.later (h : w i ≠ b) (hk : First w b (i + 1) k) : First w b i k where
  le := Nat.le_of_succ_le hk.le
  hit := hk.hit
  before l hil hlk := by
    rcases Nat.eq_or_lt_of_le hil with rfl | hlt
    · exact h
    · exact hk.before l hlt hlk

theorem First.next (h : w i ≠ b) (hk : First w b i k) : First w b (i + 1) k := by
  have hne : i ≠ k := by
    rintro rfl
    exact h hk.hit
  exact ⟨Nat.lt_of_le_of_ne hk.le hne, hk.hit, fun l hl => hk.before l (Nat.le_of_succ_le hl)⟩

theorem exists_first (hik : i ≤ k) (hk : w k = b) : ∃ a, a ≤ k ∧ First w b i a := by
  have hex : ∃ a, i ≤ a ∧ w a = b := ⟨k, hik, hk⟩
  obtain ⟨hle, hhit⟩ := Nat.find_spec hex
  refine ⟨Nat.find hex, Nat.find_le ⟨hik, hk⟩, hle, hhit, fun l hil hl hw => ?_⟩
  exact Nat.find_min hex hl ⟨hil, hw⟩

theorem await_eq_some_iff :
    await w b fuel i = some j ↔ ∃ k, First w b i k ∧ k < i + fuel ∧ j = k + 1 := by
  induction fuel generalizing i with
  | zero =>
    refine iff_of_false nofun ?_
    rintro ⟨k, hk, hlt, -⟩
    exact absurd hk.le (Nat.not_le.mpr hlt)
  | succ fuel ih =>
    rw [await]
    split
    · rename_i h
      constructor
      · rintro ⟨⟩
        exact ⟨i, First.here h, by omega, rfl⟩
      · rintro ⟨k, hk, -, rfl⟩
        have heq : k = i := by
          by_contra hne
          exact hk.before i (le_refl i) (Nat.lt_of_le_of_ne hk.le (Ne.symm hne)) h
        rw [heq]
    · rename_i h
      rw [ih]
      constructor
      · rintro ⟨k, hk, hlt, hj⟩
        exact ⟨k, hk.later h, by omega, hj⟩
      · rintro ⟨k, hk, hlt, hj⟩
        exact ⟨k, hk.next h, by omega, hj⟩

/-- Polling is waiting with a limit. -/
theorem poll_eq (w : Nat → Bool) (b : Bool) (left i : Nat) :
    poll w b left i = ((await w b left i).map (true, ·)).getD (false, i + left + 1) := by
  induction left generalizing i with
  | zero => rfl
  | succ left ih =>
    rw [poll, await]
    split
    · rfl
    · rw [ih, Nat.add_right_comm i 1 left, Nat.add_assoc i left 1]

theorem poll_eq_true_iff :
    poll w b n i = (true, j) ↔ ∃ k, First w b i k ∧ k < i + n ∧ j = k + 1 := by
  rw [poll_eq, ← await_eq_some_iff]
  cases await w b n i <;> simp

/-! ## Falls -/

/-- A high sample and then a low one. -/
def Fall (w : Nat → Bool) (k : Nat) : Prop := w k = true ∧ w (k + 1) = false

/-- The first fall from `i` on. -/
structure FirstFall (w : Nat → Bool) (i k : Nat) : Prop where
  le : i ≤ k
  fall : Fall w k
  before : ∀ l, i ≤ l → l < k → ¬ Fall w l

/-- Low samples, then high ones up to the fall. -/
theorem firstFall_iff :
    FirstFall w i k ↔ ∃ a, First w true i a ∧ a ≤ k ∧ (∀ l, a ≤ l → l ≤ k → w l = true) ∧
      w (k + 1) = false := by
  constructor
  · rintro ⟨hle, hfall, hbefore⟩
    obtain ⟨a, hak, ha⟩ := exists_first hle hfall.1
    refine ⟨a, ha, hak, fun l hal hlk => ?_, hfall.2⟩
    induction l, hal using Nat.le_induction with
    | base => exact ha.hit
    | succ l hal ih =>
      have hstay := hbefore l (ha.le.trans hal) hlk
      by_contra hlow
      exact hstay ⟨ih (Nat.le_of_succ_le hlk), Bool.eq_false_iff.mpr hlow⟩
  · rintro ⟨a, ha, hak, hhigh, hlow⟩
    refine ⟨ha.le.trans hak, ⟨hhigh k hak (le_refl k), hlow⟩, fun l hil hlk hfall => ?_⟩
    rcases Nat.lt_or_ge l a with hla | hal
    · exact ha.before l hil hla hfall.1
    · have hnext := hhigh (l + 1) (Nat.le_succ_of_le hal) hlk
      rw [hfall.2] at hnext
      cases hnext

/-- `j` is the place after the `n`-th fall from `i` on. -/
def After (w : Nat → Bool) : Nat → Nat → Nat → Prop
  | 0, i, j => j = i
  | n + 1, i, j => ∃ k, FirstFall w i k ∧ After w n (k + 2) j

/-- There are `n` falls from `i` on. -/
def Falls (w : Nat → Bool) : Nat → Nat → Prop
  | 0, _ => True
  | n + 1, i => ∃ k, i ≤ k ∧ Fall w k ∧ Falls w n (k + 1)

theorem Falls.mono (hij : i ≤ j) (h : Falls w n j) : Falls w n i := by
  cases n with
  | zero => trivial
  | succ n =>
    obtain ⟨k, hk, hfall, hrest⟩ := h
    exact ⟨k, hij.trans hk, hfall, hrest⟩

/-- A place without a fall can be passed over. -/
theorem Falls.skip (hi : ¬ Fall w i) (h : Falls w n i) : Falls w n (i + 1) := by
  cases n with
  | zero => trivial
  | succ n =>
    obtain ⟨k, hk, hfall, hrest⟩ := h
    refine ⟨k, Nat.lt_of_le_of_ne hk ?_, hfall, hrest⟩
    rintro rfl
    exact hi hfall

/-- **There is a place after the `n`-th fall exactly when there are `n` falls.** -/
theorem exists_after_iff (w : Nat → Bool) (n i : Nat) : (∃ j, After w n i j) ↔ Falls w n i := by
  induction n generalizing i with
  | zero => exact iff_of_true ⟨i, rfl⟩ trivial
  | succ n ih =>
    constructor
    · rintro ⟨j, k, hk, hj⟩
      exact ⟨k, hk.le, hk.fall, ((ih _).mp ⟨j, hj⟩).mono (Nat.le_succ _)⟩
    · rintro ⟨k, hik, hfall, hrest⟩
      have hex : ∃ a, i ≤ a ∧ Fall w a := ⟨k, hik, hfall⟩
      classical
      have hspec := Nat.find_spec hex
      have hfirst : FirstFall w i (Nat.find hex) :=
        ⟨hspec.1, hspec.2, fun l hil hl hw => Nat.find_min hex hl ⟨hil, hw⟩⟩
      have hlow : ¬ Fall w (Nat.find hex + 1) := by
        rintro ⟨hhigh, -⟩
        rw [hspec.2.2] at hhigh
        cases hhigh
      have hle : Nat.find hex + 1 ≤ k + 1 := Nat.succ_le_succ (Nat.find_le ⟨hik, hfall⟩)
      obtain ⟨j, hj⟩ := (ih _).mpr ((hrest.mono hle).skip hlow)
      exact ⟨j, _, hfirst, hj⟩

theorem After.le (h : After w n i j) : i ≤ j := by
  induction n generalizing i with
  | zero => exact Nat.le_of_eq h.symm
  | succ n ih =>
    obtain ⟨k, hk, hj⟩ := h
    have hle := ih hj
    have hik := hk.le
    omega

theorem after_add : After w (m + n) i j ↔ ∃ l, After w m i l ∧ After w n l j := by
  induction m generalizing i with
  | zero =>
    rw [Nat.zero_add]
    constructor
    · exact fun h => ⟨i, rfl, h⟩
    · rintro ⟨l, rfl, h⟩
      exact h
  | succ m ih =>
    rw [Nat.succ_add]
    constructor
    · rintro ⟨k, hk, h⟩
      obtain ⟨l, hl, hj⟩ := ih.mp h
      exact ⟨l, ⟨k, hk, hl⟩, hj⟩
    · rintro ⟨l, ⟨k, hk, hl⟩, hj⟩
      exact ⟨k, hk, ih.mpr ⟨l, hl, hj⟩⟩

/-! ## Programs -/

/-- The program, run with so many samples a wait from a place on, reads up to the `n`-th fall. -/
structure Takes (w : Nat → Bool) (n : Nat) (read : Nat → Nat → Option (α × Nat)) : Prop where
  sound : ∀ {fuel i a j}, read fuel i = some (a, j) → After w n i j
  complete : ∀ {fuel i j}, After w n i j → j ≤ fuel → ∃ a, read fuel i = some (a, j)

theorem Takes.pure (a : α) : Takes w 0 fun _ i => some (a, i) where
  sound h := (Prod.mk.inj (Option.some.inj h)).2.symm
  complete h _ := ⟨a, by rw [h]⟩

/-- **One program after the other.** -/
theorem Takes.bind {f : Nat → Nat → Option (α × Nat)} {g : α → Nat → Nat → Option (β × Nat)}
    (hf : Takes w m f) (hg : ∀ a, Takes w n (g a)) :
    Takes w (m + n) fun fuel i => (f fuel i).bind fun q => g q.1 fuel q.2 where
  sound h := by
    obtain ⟨⟨a, l⟩, hfirst, hrest⟩ := Option.bind_eq_some_iff.mp h
    exact after_add.mpr ⟨l, hf.sound hfirst, (hg a).sound hrest⟩
  complete h hfuel := by
    obtain ⟨l, hl, hj⟩ := after_add.mp h
    obtain ⟨a, hfirst⟩ := hf.complete hl (hj.le.trans hfuel)
    obtain ⟨c, hrest⟩ := (hg a).complete hj hfuel
    exact ⟨c, Option.bind_eq_some_iff.mpr ⟨(a, l), hfirst, hrest⟩⟩

/-- **The program returns exactly when there are enough falls.** -/
theorem Takes.returns_iff {read : Nat → Nat → Option (α × Nat)} (h : Takes w n read) (i : Nat) :
    (∃ fuel a j, read fuel i = some (a, j)) ↔ Falls w n i := by
  rw [← exists_after_iff]
  constructor
  · rintro ⟨fuel, a, j, hread⟩
    exact ⟨j, h.sound hread⟩
  · rintro ⟨j, hj⟩
    obtain ⟨a, hread⟩ := h.complete hj (le_refl j)
    exact ⟨j, a, j, hread⟩

end OSCompas.Samples
