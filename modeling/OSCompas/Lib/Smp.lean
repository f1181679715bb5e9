import OSCompas.Lib.X86

/-!
# Processors that share their memory

Instructions of the 32-bit x86 that work on words of a memory that several processors share, each of
them one atomic step.  Nothing here names a program.

* `Core` — the registers and the zero flag of one processor;
* `Instr`, `Instr.step` — the instructions; `lock cmpxchg` compares with `eax`, and loads it where
  the comparison fails;
* `Bare` — a word without a bit, but for the lowest one of the byte at address 0.

Principal results: `Bare.ne_address`, `Bare.ne_one`, `Bare.clear` and `Bare.one_at_zero`.
-/

set_option autoImplicit false

namespace OSCompas.Smp

open X86 ByteMemory Function

/-- What the instructions use of a processor. -/
structure Core where
  reg : Reg → UInt32
  zf : Bool

def Core.set (c : Core) (r : Reg) (v : UInt32) : Core := { c with reg := update c.reg r v }

/-- The word at `a`. -/
def word (mem : Mem) (a : UInt32) : UInt32 := UInt32.ofNat (load W mem a.toNat 4)

def storeWord (mem : Mem) (a v : UInt32) : Mem := store W mem a.toNat 4 v.toNat

/-- An operand `d(b)` is the memory at `b + d`. -/
inductive Instr where
  | pause
  | load (d : UInt32) (b r : Reg)
  | loadImm (v : UInt32) (r : Reg)
  | storeImm (v : UInt32) (b : Reg)
  | cmpImm (v : UInt32) (b : Reg)
  | lockCmpxchg (r b : Reg)
  | jne (l : Nat)
  | ret
  deriving DecidableEq, Repr

/-- Where execution goes on. -/
inductive Flow where
  | next
  | jump (l : Nat)
  | back
  deriving DecidableEq, Repr

def Instr.step (c : Core) (mem : Mem) : Instr → Core × Mem × Flow
  | .pause => (c, mem, .next)
  | .load d b r => (c.set r (word mem (c.reg b + d)), mem, .next)
  | .loadImm v r => (c.set r v, mem, .next)
  | .storeImm v b => (c, storeWord mem (c.reg b) v, .next)
  | .cmpImm v b => ({ c with zf := decide (word mem (c.reg b) = v) }, mem, .next)
  | .lockCmpxchg r b =>
    if word mem (c.reg b) = c.reg .eax then
      ({ c with zf := true }, storeWord mem (c.reg b) (c.reg r), .next)
    else ({ c.set .eax (word mem (c.reg b)) with zf := false }, mem, .next)
  | .jne l => (c, mem, if c.zf then .next else .jump l)
  | .ret => (c.set .esp (c.reg .esp + 4), mem, .back)

variable {c : Core} {mem : Mem} {a v : UInt32} {b r r' : Reg}

@[simp] theorem set_reg (c : Core) (r : Reg) (v : UInt32) : (c.set r v).reg r = v :=
  update_self _ _ _

theorem set_reg_of_ne (h : r' ≠ r) : (c.set r v).reg r' = c.reg r' := update_of_ne h _ _

theorem step_lockCmpxchg_eq (h : word mem (c.reg b) = c.reg .eax) :
    Instr.step c mem (.lockCmpxchg r b) =
      ({ c with zf := true }, storeWord mem (c.reg b) (c.reg r), .next) :=
  if_pos h

theorem step_lockCmpxchg_ne (h : word mem (c.reg b) ≠ c.reg .eax) :
    Instr.step c mem (.lockCmpxchg r b) =
      ({ c.set .eax (word mem (c.reg b)) with zf := false }, mem, .next) :=
  if_neg h

/-! ## Words and their bytes -/

theorem word_toNat (mem : Mem) (a : UInt32) : (word mem a).toNat =
    (mem (a.toNat % W)).toNat + (mem ((a.toNat + 1) % W)).toNat * 256 +
      (mem ((a.toNat + 2) % W)).toNat * 256 ^ 2 + (mem ((a.toNat + 3) % W)).toNat * 256 ^ 3 := by
  have hlt : load W mem a.toNat 4 < 2 ^ 32 := load_lt W mem a.toNat 4
  unfold word
  rw [UInt32.toNat_ofNat_of_lt' hlt]
  simp [load]

theorem word_storeWord (mem : Mem) (a v : UInt32) : word (storeWord mem a v) a = v := by
  have hload : load W (storeWord mem a v) a.toNat 4 = v.toNat % 256 ^ 4 :=
    load_store_around a.toNat_lt (by decide)
  unfold word
  rw [hload, Nat.mod_eq_of_lt (show v.toNat < 256 ^ 4 from v.toNat_lt), UInt32.ofNat_toNat]

/-- A word is cleared. -/
theorem storeWord_zero (mem : Mem) (a : UInt32) (x : Nat) :
    storeWord mem a 0 x = if InRange W a.toNat 4 x then 0 else mem x := by
  by_cases hx : offset W a.toNat x < 4
  · simp [storeWord, store, InRange, hx]
  · simp [storeWord, store, InRange, hx]

/-- The word 1 at address 0. -/
theorem storeWord_one (mem : Mem) {x : Nat} (hx : x < W) :
    storeWord mem 0 1 x = if x = 0 then 1 else if x < 4 then 0 else mem x := by
  have hoff : offset W 0 x = x := offset_of_le (Nat.zero_le x) hx
  by_cases h0 : x = 0
  · subst h0
    rfl
  · by_cases h4 : x < 4
    · have hpow : 256 ≤ 256 ^ x := Nat.le_self_pow h0 256
      have hdiv : 1 / 256 ^ x = 0 := Nat.div_eq_of_lt (by omega)
      simp [storeWord, store, hoff, h0, h4, hdiv]
    · simp [storeWord, store, hoff, h0, h4]

/-! ## Bare words -/

/-- The bytes of the word at `a` are 0, but for the one at address 0, which may be 1. -/
def Bare (mem : Mem) (a : UInt32) : Prop :=
  ∀ k < 4, mem ((a.toNat + k) % W) = 0 ∨ (a.toNat + k) % W = 0 ∧ mem 0 = 1

theorem word_eq_zero_iff : word mem a = 0 ↔ ∀ k < 4, mem ((a.toNat + k) % W) = 0 := by
  have hword := word_toNat mem a
  constructor
  · intro h k hk
    rw [h] at hword
    apply UInt8.toNat_inj.mp
    have hzero : (0 : UInt32).toNat = 0 := rfl
    obtain rfl | rfl | rfl | rfl : k = 0 ∨ k = 1 ∨ k = 2 ∨ k = 3 := by omega
    all_goals
      simp only [Nat.add_zero, UInt8.toNat_zero]
      omega
  · intro h
    have h0 := h 0 (by omega)
    rw [Nat.add_zero] at h0
    rw [h0, h 1 (by omega), h 2 (by omega), h 3 (by omega)] at hword
    exact UInt32.toNat_inj.mp hword

theorem Bare.of_zero (h : word mem a = 0) : Bare mem a := fun k hk =>
  .inl (word_eq_zero_iff.mp h k hk)

/-- A byte of a bare word. -/
theorem Bare.byte (h : Bare mem a) {k : Nat} (hk : k < 4) : (mem ((a.toNat + k) % W)).toNat = 0 ∨
    (a.toNat + k) % W = 0 ∧ (mem ((a.toNat + k) % W)).toNat = 1 := by
  rcases h k hk with h0 | ⟨hplace, h1⟩
  · exact .inl (by simp [h0])
  · exact .inr ⟨hplace, by simp [hplace, h1]⟩

/-- What a bare word other than the one at address 0 holds. -/
theorem Bare.value (h : Bare mem a) (ha : a ≠ 0) : (word mem a).toNat = 0 ∨
    ∃ k, 0 < k ∧ k < 4 ∧ a.toNat + k = W ∧ (word mem a).toNat = 256 ^ k := by
  have hne : a.toNat ≠ 0 := fun hz => ha (UInt32.toNat_inj.mp hz)
  have hlt : a.toNat < 2 ^ 32 := a.toNat_lt
  have h0 := h.byte (k := 0) (by omega)
  have h1 := h.byte (k := 1) (by omega)
  have h2 := h.byte (k := 2) (by omega)
  have h3 := h.byte (k := 3) (by omega)
  rw [word_toNat]
  simp only [W, Nat.add_zero] at h0 h1 h2 h3 ⊢
  -- the byte at address 0 is one of the word at most, and not its first
  rcases h1 with h1 | ⟨hplace, h1⟩
  · rcases h2 with h2 | ⟨hplace, h2⟩
    · rcases h3 with h3 | ⟨hplace, h3⟩
      · exact .inl (by omega)
      · exact .inr ⟨3, by omega, by omega, by omega, by omega⟩
    · exact .inr ⟨2, by omega, by omega, by omega, by omega⟩
  · exact .inr ⟨1, by omega, by omega, by omega, by omega⟩

theorem Bare.ne_address (h : Bare mem a) (ha : a ≠ 0) : word mem a ≠ a := by
  intro he
  have hne : a.toNat ≠ 0 := fun hz => ha (UInt32.toNat_inj.mp hz)
  rcases h.value ha with h0 | ⟨k, hpos, hk, hplace, hv⟩
  · rw [he] at h0
    exact hne h0
  · rw [he] at hv
    simp only [W] at hplace
    obtain rfl | rfl | rfl : k = 1 ∨ k = 2 ∨ k = 3 := by omega
    all_goals omega

theorem Bare.ne_one (h : Bare mem a) (ha : a ≠ 0) : word mem a ≠ 1 := by
  intro he
  have hone : (word mem a).toNat = 1 := by rw [he]; rfl
  rcases h.value ha with h0 | ⟨k, hpos, -, -, hv⟩
  · omega
  · have hpow : 256 ≤ 256 ^ k := Nat.le_self_pow (by omega) 256
    omega

/-- A word is cleared. -/
theorem Bare.clear (h : Bare mem a) (b : UInt32) : Bare (storeWord mem b 0) a := by
  intro k hk
  rw [storeWord_zero, storeWord_zero]
  by_cases hin : InRange W b.toNat 4 ((a.toNat + k) % W)
  · rw [if_pos hin]
    exact .inl rfl
  · rw [if_neg hin]
    rcases h k hk with h0 | ⟨hplace, h1⟩
    · exact .inl h0
    · rw [hplace] at hin ⊢
      rw [if_neg hin]
      exact .inr ⟨rfl, h1⟩

/-- The word at address 0 becomes 1. -/
theorem Bare.one_at_zero (h : Bare mem a) : Bare (storeWord mem 0 1) a := by
  intro k hk
  rw [storeWord_one mem (Nat.mod_lt _ (by decide)), storeWord_one mem (show 0 < W by decide)]
  by_cases hplace : (a.toNat + k) % W = 0
  · exact .inr ⟨hplace, rfl⟩
  · rw [if_neg hplace]
    refine .inl ?_
    split
    · rfl
    · exact (h k hk).resolve_right fun hz => hplace hz.1

end OSCompas.Smp
