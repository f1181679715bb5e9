import Mathlib.Tactic.Ring
import Mathlib.Order.Interval.Set.Basic

/-!
# Byte memory with little-endian words

Memory of a machine whose addresses are the residues modulo `W`: a function from addresses to
bytes.  Nothing here names a program; `W` is a parameter.

* `load W m a n` — the `n` bytes from `a` upwards, read as a little-endian number;
* `store W m a n v` — the low `n` bytes of `v` written from `a` upwards;
* `fill`, `copy` — `memset` and `memcpy`.

* `InRange`, `AgreeOff` — a range of addresses, and agreement outside it.

Principal results: `load_store_same`, `load_store_disjoint`, `load_congr` (a load only looks at
its own bytes) and `load_add` (a word is its low part and its high part), which together decide
what a structure reads after another structure has been written over the same bytes.
-/

set_option autoImplicit false

namespace OSCompas.ByteMemory

/-- Byte memory. -/
abbrev Mem := Nat → UInt8

/-- How far `x` lies above `a`, going around the address space. -/
def offset (W a x : Nat) : Nat := (x + (W - a)) % W

/-- Little-endian read of `n` bytes. -/
def load (W : Nat) (m : Mem) (a : Nat) : Nat → Nat
  | 0 => 0
  | n + 1 => load W m a n + (m ((a + n) % W)).toNat * 256 ^ n

/-- Little-endian write of `n` bytes. -/
def store (W : Nat) (m : Mem) (a n v : Nat) : Mem := fun x =>
  if offset W a x < n then UInt8.ofNat (v / 256 ^ offset W a x) else m x

/-- `memset`. -/
def fill (W : Nat) (m : Mem) (a n : Nat) (v : UInt8) : Mem := fun x =>
  if offset W a x < n then v else m x

/-- `memcpy` of `n` bytes from `s` to `d`. -/
def copy (W : Nat) (m : Mem) (d s n : Nat) : Mem := fun x =>
  if offset W d x < n then m ((s + offset W d x) % W) else m x

/-- Two memories agree on `[a, a + n)`. -/
def AgreeOn (m m' : Mem) (a n : Nat) : Prop := ∀ x, a ≤ x → x < a + n → m' x = m x

variable {W : Nat} {m m' m'' : Mem} {a b n k v x : Nat}

/-! ## Agreement -/

theorem AgreeOn.refl (m : Mem) (a n : Nat) : AgreeOn m m a n := fun _ _ _ => rfl

theorem AgreeOn.trans (h : AgreeOn m m' a n) (h' : AgreeOn m' m'' a n) : AgreeOn m m'' a n :=
  fun x h1 h2 => (h' x h1 h2).trans (h x h1 h2)

theorem AgreeOn.mono (h : AgreeOn m m' a n) (hb : a ≤ b) (hk : b + k ≤ a + n) :
    AgreeOn m m' b k :=
  fun x h1 h2 => h x (by omega) (by omega)

/-! ## Offsets -/

theorem offset_of_le (ha : a ≤ x) (hx : x < W) : offset W a x = x - a := by
  unfold offset
  rw [show x + (W - a) = (x - a) + W by omega, Nat.add_mod_right, Nat.mod_eq_of_lt (by omega)]

theorem offset_of_lt (hx : x < a) (ha : a ≤ W) : offset W a x = x + (W - a) := by
  unfold offset
  rw [Nat.mod_eq_of_lt (by omega)]

/-- The offset of the `j`-th address from `a` on. -/
theorem offset_add_mod {j : Nat} (ha : a < W) (hj : j < W) : offset W a ((a + j) % W) = j := by
  by_cases h : a + j < W
  · rw [Nat.mod_eq_of_lt h, offset_of_le (by omega) h]
    omega
  · rw [Nat.mod_eq_sub_mod (by omega), Nat.mod_eq_of_lt (by omega),
      offset_of_lt (by omega) (by omega)]
    omega

/-- Outside `[a, a + n)` the offset from `a` is at least `n`. -/
theorem le_offset_of_outside (ha : a + n ≤ W) (hx : x < W) (h : x < a ∨ a + n ≤ x) :
    n ≤ offset W a x := by
  by_cases hxa : x < a
  · rw [offset_of_lt hxa (by omega)]; omega
  · rw [offset_of_le (by omega) hx]; omega

/-! ## Writes leave the rest alone -/

theorem store_outside (ha : a + n ≤ W) (hx : x < W) (h : x < a ∨ a + n ≤ x) :
    store W m a n v x = m x :=
  if_neg (Nat.not_lt.mpr (le_offset_of_outside ha hx h))

theorem fill_outside {c : UInt8} (ha : a + n ≤ W) (hx : x < W) (h : x < a ∨ a + n ≤ x) :
    fill W m a n c x = m x :=
  if_neg (Nat.not_lt.mpr (le_offset_of_outside ha hx h))

theorem copy_outside (ha : a + n ≤ W) (hx : x < W) (h : x < a ∨ a + n ≤ x) :
    copy W m a b n x = m x :=
  if_neg (Nat.not_lt.mpr (le_offset_of_outside ha hx h))

/-- A write leaves every range it does not meet as it was. -/
theorem agreeOn_store (ha : a + n ≤ W) (hb : b + k ≤ W) (h : b + k ≤ a ∨ a + n ≤ b) :
    AgreeOn m (store W m a n v) b k :=
  fun _ h1 h2 => store_outside ha (by omega) (by omega)

theorem agreeOn_fill {c : UInt8} (ha : a + n ≤ W) (hb : b + k ≤ W)
    (h : b + k ≤ a ∨ a + n ≤ b) : AgreeOn m (fill W m a n c) b k :=
  fun _ h1 h2 => fill_outside ha (by omega) (by omega)

theorem agreeOn_copy {s : Nat} (ha : a + n ≤ W) (hb : b + k ≤ W)
    (h : b + k ≤ a ∨ a + n ≤ b) : AgreeOn m (copy W m a s n) b k :=
  fun _ h1 h2 => copy_outside ha (by omega) (by omega)

/-! ## Words -/

theorem load_lt (W : Nat) (m : Mem) (a n : Nat) : load W m a n < 256 ^ n := by
  induction n with
  | zero => simp [load]
  | succ n ih =>
    have hb : (m ((a + n) % W)).toNat < 256 := UInt8.toNat_lt _
    have hm : (m ((a + n) % W)).toNat * 256 ^ n ≤ 255 * 256 ^ n :=
      Nat.mul_le_mul_right _ (by omega)
    rw [load, Nat.pow_succ]
    omega

/-- A load only looks at its own bytes. -/
theorem load_congr (h : AgreeOn m m' a n) (ha : a + n ≤ W) : load W m' a n = load W m a n := by
  induction n with
  | zero => rfl
  | succ n ih =>
    rw [load, load, ih (h.mono (Nat.le_refl _) (by omega)) (by omega),
      Nat.mod_eq_of_lt (by omega : a + n < W), h (a + n) (by omega) (by omega)]

/-- A load only looks at its own bytes, wherever they are. -/
theorem load_eq_of_bytes (h : ∀ i < n, m' ((a + i) % W) = m ((a + i) % W)) :
    load W m' a n = load W m a n := by
  induction n with
  | zero => rfl
  | succ n ih => rw [load, load, ih fun i hi => h i (by omega), h n (by omega)]

/-- A word is its low part and its high part. -/
theorem load_add (W : Nat) (m : Mem) (a n k : Nat) :
    load W m a (n + k) = load W m a n + 256 ^ n * load W m (a + n) k := by
  induction k with
  | zero => simp [load]
  | succ k ih =>
    rw [← Nat.add_assoc, load, ih, load, Nat.add_assoc a n k, Nat.pow_add]
    ring

theorem load_store_disjoint (ha : a + n ≤ W) (hb : b + k ≤ W) (h : b + k ≤ a ∨ a + n ≤ b) :
    load W (store W m a n v) b k = load W m b k :=
  load_congr (agreeOn_store ha hb h) hb

/-- A word read back where it was written is the value written, cut to its width, also where the
word goes around the end of the address space. -/
theorem load_store_around (ha : a < W) (hn : n ≤ W) :
    load W (store W m a n v) a n = v % 256 ^ n := by
  suffices h : ∀ j, j ≤ n → load W (store W m a n v) a j = v % 256 ^ j from h n (Nat.le_refl _)
  intro j
  induction j with
  | zero => intro _; simp [load, Nat.mod_one]
  | succ j ih =>
    intro hj
    have hb : store W m a n v ((a + j) % W) = UInt8.ofNat (v / 256 ^ j) := by
      unfold store
      rw [offset_add_mod ha (by omega), if_pos (by omega)]
    have hv : v % 256 ^ (j + 1) = v % 256 ^ j + 256 ^ j * (v / 256 ^ j % 256) := by
      rw [Nat.pow_succ]; exact Nat.mod_mul
    rw [load, ih (by omega), hb, UInt8.toNat_ofNat', hv, Nat.mul_comm]

theorem load_store_same (ha : a + n ≤ W) : load W (store W m a n v) a n = v % 256 ^ n := by
  rcases Nat.eq_zero_or_pos n with rfl | hn
  · simp [load, Nat.mod_one]
  · exact load_store_around (by omega) (by omega)

theorem load_store_same_of_lt (ha : a + n ≤ W) (hv : v < 256 ^ n) :
    load W (store W m a n v) a n = v := by
  rw [load_store_same ha, Nat.mod_eq_of_lt hv]

/-! ## Displacements from one address -/

/-- The offset from an address that lies `d` above `a`. -/
theorem offset_shift {d : Nat} (ha : a < W) (hd : d < W) :
    offset W ((a + d) % W) x = (offset W a x + (W - d)) % W := by
  unfold offset
  rw [Nat.mod_add_mod]
  by_cases h : a + d < W
  · rw [Nat.mod_eq_of_lt h, show x + (W - a) + (W - d) = x + (W - (a + d)) + W by omega,
      Nat.add_mod_right]
  · have hmod : (a + d) % W = a + d - W := by
      rw [Nat.mod_eq_sub_mod (by omega), Nat.mod_eq_of_lt (by omega)]
    rw [hmod, show x + (W - (a + d - W)) = x + (W - a) + (W - d) by omega]

theorem offset_lt (hW : 0 < W) : offset W a x < W := Nat.mod_lt _ hW

/-- A range that begins `d` above `a` holds what lies at least `d` above `a`. -/
theorem offset_shift_lt_iff {d : Nat} (ha : a < W) (hdn : d + n ≤ W) (hn : 0 < n) :
    offset W ((a + d) % W) x < n ↔ d ≤ offset W a x ∧ offset W a x < d + n := by
  have hlt : offset W a x < W := offset_lt (by omega)
  rw [offset_shift ha (by omega)]
  by_cases h : d ≤ offset W a x
  · rw [show offset W a x + (W - d) = (offset W a x - d) + W by omega, Nat.add_mod_right,
      Nat.mod_eq_of_lt (by omega)]
    omega
  · rw [Nat.mod_eq_of_lt (by omega)]
    omega

theorem store_of_not_lt (h : ¬ offset W a x < n) : store W m a n v x = m x := if_neg h

/-- Two words at displacements that do not meet. -/
theorem load_store_apart {d e : Nat} (ha : a < W) (hdn : d + n ≤ W) (hek : e + k ≤ W)
    (h : e + k ≤ d ∨ d + n ≤ e) :
    load W (store W m ((a + d) % W) n v) ((a + e) % W) k = load W m ((a + e) % W) k := by
  apply load_eq_of_bytes
  intro i hi
  apply store_of_not_lt
  intro hlt
  have hoff : offset W a (((a + e) % W + i) % W) = e + i := by
    rw [Nat.mod_add_mod, Nat.add_assoc, offset_add_mod ha (by omega)]
  rw [offset_shift_lt_iff ha hdn (by omega), hoff] at hlt
  omega

/-! ## Ranges around the end of the address space -/

/-- The `n` addresses from `a` on, around the end of the address space. -/
def InRange (W a n x : Nat) : Prop := offset W a x < n

instance (W a n x : Nat) : Decidable (InRange W a n x) := inferInstanceAs (Decidable (_ < _))

/-- The memories agree outside the `n` addresses from `a` on. -/
def AgreeOff (W : Nat) (m m' : Mem) (a n : Nat) : Prop := ∀ x, ¬ InRange W a n x → m' x = m x

theorem AgreeOff.refl (W : Nat) (m : Mem) (a n : Nat) : AgreeOff W m m a n := fun _ _ => rfl

theorem AgreeOff.trans (h : AgreeOff W m m' a n) (h' : AgreeOff W m' m'' a n) :
    AgreeOff W m m'' a n :=
  fun x hx => (h' x hx).trans (h x hx)

theorem AgreeOff.mono (h : AgreeOff W m m' a n) (hk : n ≤ k) : AgreeOff W m m' a k :=
  fun x hx => h x fun hn => hx (Nat.lt_of_lt_of_le hn hk)

/-- A write inside a range is not seen outside it. -/
theorem agreeOff_store {d : Nat} (ha : a < W) (hdk : d + k ≤ n) (hn : n ≤ W) :
    AgreeOff W m (store W m ((a + d) % W) k v) a n := by
  intro x hx
  apply store_of_not_lt
  intro hlt
  apply hx
  rcases Nat.eq_zero_or_pos k with rfl | hk
  · omega
  · rw [offset_shift_lt_iff ha (by omega) hk] at hlt
    exact Nat.lt_of_lt_of_le hlt.2 hdk

/-- The same write makes agreement outside its range agreement everywhere. -/
theorem AgreeOff.store (h : AgreeOff W m m' a n) :
    ByteMemory.store W m' a n v = ByteMemory.store W m a n v := by
  funext x
  unfold ByteMemory.store
  split
  · rfl
  · rename_i hx
    exact h x hx

/-- The same write on both sides. -/
theorem AgreeOff.store_store (h : AgreeOff W m m' a n) (b k v : Nat) :
    AgreeOff W (ByteMemory.store W m b k v) (ByteMemory.store W m' b k v) a n := by
  intro x hx
  unfold ByteMemory.store
  split
  · rfl
  · exact h x hx

/-- A load is not changed by what happens in a range that does not meet it. -/
theorem AgreeOff.load_eq (h : AgreeOff W m m' a n)
    (hb : ∀ i < k, ¬ InRange W a n ((b + i) % W)) : load W m' b k = load W m b k :=
  load_eq_of_bytes fun i hi => h _ (hb i hi)

end OSCompas.ByteMemory
