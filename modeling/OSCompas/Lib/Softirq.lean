import OSCompas.Lib.Progress
import Mathlib.Logic.Function.Basic

/-!
# Processes and a timer under one spin lock

Processes `ι`, each on a processor of its own, run procedures that take and release one spin lock.
A timer has a callback that takes the same lock; when the timer expires, the callback starts on a
free processor, or on top of a process, which then does not go on before the callback is done.

* `Code σ ρ` — a procedure step by step, on the shared data `σ`;
* `Machine`, `System.step` — where the processes and the callback are;
* `Machine.Stuck` — the callback spins on top of the process that holds the lock;
* `Machine.AtRest` — the lock is free, and neither the callback nor a process runs;
* `Contract` — what the participants rely on and guarantee, for an invariant of the data.

Principal results: `System.recovers_iff` (from a reachable state the machine can come to rest unless
it is stuck), `Machine.Stuck.run` (once stuck it is stuck for good) and `Contract.holds`.
-/

set_option autoImplicit false

namespace OSCompas.Softirq

open Function Progress

/-- A procedure that works on shared data `σ` under a lock and returns a `ρ`. -/
inductive Code (σ ρ : Type) where
  | ret (r : ρ)
  /-- One step; how it goes on is decided by the data before it. -/
  | step (f : σ → σ) (k : σ → Code σ ρ)
  | lock (k : Code σ ρ)
  | unlock (k : Code σ ρ)

variable {ι σ ρ κ ε : Type}

namespace Code

/-- One step after which the procedure goes on with `k`. -/
def act (f : σ → σ) (k : Code σ ρ) : Code σ ρ := .step f fun _ => k

/-- A test of the data. -/
def test (k : σ → Code σ ρ) : Code σ ρ := .step id k

/-- Entered with the lock `held` or not, the procedure locks and unlocks in turn, and returns with
the lock free. -/
def Orderly : Code σ ρ → Bool → Prop
  | ret _, held => held = false
  | step _ k, held => ∀ s, (k s).Orderly held
  | lock k, held => held = false ∧ k.Orderly true
  | unlock k, held => held = true ∧ k.Orderly false

/-- Whatever happens to the data between its steps, as long as it is in `R` and keeps `I`, the steps
of the procedure are in `G` and keep `I`. -/
def Keeps (R G : σ → σ → Prop) (I : σ → Prop) : Code σ ρ → σ → Prop
  | ret _, _ => True
  | step f k, s => ∀ t, R s t → I t → G t (f t) ∧ I (f t) ∧ (k t).Keeps R G I (f t)
  | lock k, s => ∀ t, R s t → I t → k.Keeps R G I t
  | unlock k, s => ∀ t, R s t → I t → k.Keeps R G I t

/-- Whatever `R` does to the data between its steps, they are in `Q` when the procedure returns. -/
def Ends (R : σ → σ → Prop) (Q : σ → Prop) : Code σ ρ → σ → Prop
  | ret _, s => ∀ t, R s t → Q t
  | step f k, s => ∀ t, R s t → (k t).Ends R Q (f t)
  | lock k, s => ∀ t, R s t → k.Ends R Q t
  | unlock k, s => ∀ t, R s t → k.Ends R Q t

variable {R G : σ → σ → Prop} {I Q : σ → Prop} {s t : σ} {held : Bool} {k : Code σ ρ}

@[simp] theorem orderly_ret (r : ρ) : (ret r : Code σ ρ).Orderly held ↔ held = false := Iff.rfl

@[simp] theorem orderly_act [Nonempty σ] (f : σ → σ) : (act f k).Orderly held ↔ k.Orderly held :=
  forall_const σ

@[simp] theorem orderly_test (k : σ → Code σ ρ) :
    (test k).Orderly held ↔ ∀ s, (k s).Orderly held := Iff.rfl

@[simp] theorem orderly_lock : (lock k).Orderly held ↔ held = false ∧ k.Orderly true := Iff.rfl

@[simp] theorem orderly_unlock : (unlock k).Orderly held ↔ held = true ∧ k.Orderly false := Iff.rfl

@[simp] theorem keeps_ret (r : ρ) : (ret r : Code σ ρ).Keeps R G I s := trivial

@[simp] theorem keeps_act (f : σ → σ) : (act f k).Keeps R G I s ↔
    ∀ t, R s t → I t → G t (f t) ∧ I (f t) ∧ k.Keeps R G I (f t) := Iff.rfl

@[simp] theorem keeps_test (k : σ → Code σ ρ) : (test k).Keeps R G I s ↔
    ∀ t, R s t → I t → G t t ∧ I t ∧ (k t).Keeps R G I t := Iff.rfl

@[simp] theorem keeps_lock : (lock k).Keeps R G I s ↔ ∀ t, R s t → I t → k.Keeps R G I t := Iff.rfl

@[simp] theorem keeps_unlock : (unlock k).Keeps R G I s ↔ ∀ t, R s t → I t → k.Keeps R G I t :=
  Iff.rfl

/-- A procedure is still right after what it relies on. -/
theorem Keeps.mono {c : Code σ ρ} (h : c.Keeps R G I s) (hR : ∀ u, R t u → R s u) :
    c.Keeps R G I t := by
  cases c with
  | ret r => trivial
  | step f k => exact fun u hu hI => h u (hR u hu) hI
  | lock k => exact fun u hu hI => h u (hR u hu) hI
  | unlock k => exact fun u hu hI => h u (hR u hu) hI

@[simp] theorem ends_ret (r : ρ) : (ret r : Code σ ρ).Ends R Q s ↔ ∀ t, R s t → Q t := Iff.rfl

@[simp] theorem ends_act (f : σ → σ) : (act f k).Ends R Q s ↔ ∀ t, R s t → k.Ends R Q (f t) :=
  Iff.rfl

@[simp] theorem ends_test (k : σ → Code σ ρ) :
    (test k).Ends R Q s ↔ ∀ t, R s t → (k t).Ends R Q t := Iff.rfl

@[simp] theorem ends_lock : (lock k).Ends R Q s ↔ ∀ t, R s t → k.Ends R Q t := Iff.rfl

@[simp] theorem ends_unlock : (unlock k).Ends R Q s ↔ ∀ t, R s t → k.Ends R Q t := Iff.rfl

theorem Ends.mono {c : Code σ ρ} (h : c.Ends R Q s) (hR : ∀ u, R t u → R s u) : c.Ends R Q t := by
  cases c with
  | ret r => exact fun u hu => h u (hR u hu)
  | step f k => exact fun u hu => h u (hR u hu)
  | lock k => exact fun u hu => h u (hR u hu)
  | unlock k => exact fun u hu => h u (hR u hu)

end Code

/-! ## The machine -/

/-- The callback of the timer, what calls run, and what happens to the data besides. -/
structure System (σ ρ κ ε : Type) where
  code : κ → Code σ ρ
  callback : Code σ Unit
  /-- The timer is pending and its time has come. -/
  expired : σ → Bool
  /-- Before its callback runs, the timer is taken off the list. -/
  detach : σ → σ
  event : ε → σ → σ

/-- `holder` is who has the lock, `none` standing for the callback; `callback` is the process the
callback runs on top of, if it does, and where it is. -/
structure Machine (ι σ ρ : Type) where
  data : σ
  holder : Option (Option ι)
  running : ι → Option (Code σ ρ)
  callback : Option (Option ι × Code σ Unit)
  returned : ι → List ρ

inductive Action (ι κ ε : Type) where
  | call (i : ι) (c : κ)
  /-- The next step of process `i`. -/
  | run (i : ι)
  /-- The timer expires. -/
  | expire (host : Option ι)
  /-- The next step of the callback. -/
  | callback
  | event (e : ε)

/-- The machine when nothing has been called. -/
def Machine.idle (s : σ) : Machine ι σ ρ := ⟨s, none, fun _ => none, none, fun _ => []⟩

/-- The callback runs on top of process `i`. -/
def Machine.Under (m : Machine ι σ ρ) (i : ι) : Prop := m.callback.map Prod.fst = some (some i)

variable [DecidableEq ι]

instance (m : Machine ι σ ρ) (i : ι) : Decidable (m.Under i) := inferInstanceAs (Decidable (_ = _))

/-- The next step of process `i`. -/
def Machine.next (m : Machine ι σ ρ) (i : ι) : Code σ ρ → Machine ι σ ρ
  | .ret r => { m with
      running := update m.running i none, returned := update m.returned i (m.returned i ++ [r]) }
  | .step f k => { m with data := f m.data, running := update m.running i (some (k m.data)) }
  | .lock k =>
    if m.holder = none then
      { m with holder := some (some i), running := update m.running i (some k) }
    else m
  | .unlock k => { m with holder := none, running := update m.running i (some k) }

/-- The next step of the callback. -/
def Machine.nextCallback (m : Machine ι σ ρ) (host : Option ι) : Code σ Unit → Machine ι σ ρ
  | .ret _ => { m with callback := none }
  | .step f k => { m with data := f m.data, callback := some (host, k m.data) }
  | .lock k =>
    if m.holder = none then { m with holder := some none, callback := some (host, k) } else m
  | .unlock k => { m with holder := none, callback := some (host, k) }

/-- A step; a lock that is held keeps whoever wants it where it is. -/
def System.step (S : System σ ρ κ ε) (m : Machine ι σ ρ) : Action ι κ ε → Option (Machine ι σ ρ)
  | .call i c =>
    if m.running i = none ∧ ¬ m.Under i then
      some { m with running := update m.running i (some (S.code c)) }
    else none
  | .run i => if m.Under i then none else (m.running i).map (m.next i)
  | .expire host =>
    if m.callback = none ∧ S.expired m.data = true then
      some { m with data := S.detach m.data, callback := some (host, S.callback) }
    else none
  | .callback => m.callback.map fun p => m.nextCallback p.1 p.2
  | .event e => some { m with data := S.event e m.data }

variable {S : System σ ρ κ ε} {m m' : Machine ι σ ρ} {a : Action ι κ ε} {as : List (Action ι κ ε)}
  {i j : ι} {host : Option ι}

/-! ## The lock -/

/-- Every procedure locks and unlocks in turn, and the callback begins with the lock. -/
structure System.Orderly (S : System σ ρ κ ε) : Prop where
  code : ∀ c, (S.code c).Orderly false
  callback : S.callback.Orderly false
  locks : ∃ k, S.callback = .lock k

/-- The procedures are where the lock says; while the process below it has the lock the callback has
not got beyond its own. -/
structure Machine.Fits (S : System σ ρ κ ε) (m : Machine ι σ ρ) : Prop where
  running : ∀ i c, m.running i = some c → c.Orderly (decide (m.holder = some (some i)))
  holder : ∀ i, m.holder = some (some i) → m.running i ≠ none
  callback : ∀ host c, m.callback = some (host, c) → c.Orderly (decide (m.holder = some none))
  owner : m.holder = some none → m.callback ≠ none
  below : ∀ i c, m.callback = some (some i, c) → m.holder = some (some i) → c = S.callback

theorem Machine.fits_idle (s : σ) : (idle s : Machine ι σ ρ).Fits S where
  running := by simp [idle]
  holder := by simp [idle]
  callback := by simp [idle]
  owner := by simp [idle]
  below := by simp [idle]

/-- A step of a process that is not below the callback. -/
theorem Machine.Fits.next {c : Code σ ρ} (hm : m.Fits S) (hi : ¬ m.Under i)
    (hc : m.running i = some c) : (m.next i c).Fits S := by
  have horderly := hm.running i c hc
  have hbelow (c') (h : m.callback = some (some i, c')) : False := hi (by simp [Under, h])
  cases c with
  | ret r =>
    have hfree : m.holder ≠ some (some i) := by simpa using horderly
    refine ⟨fun j c' hj => ?_, fun j hj => ?_, hm.callback, hm.owner, hm.below⟩
    · by_cases hji : j = i
      · subst hji
        simp [Machine.next] at hj
      · exact hm.running j c' (by simpa [Machine.next, hji] using hj)
    · have hji : j ≠ i := by
        rintro rfl
        exact hfree hj
      simpa [Machine.next, hji] using hm.holder j hj
  | step f k =>
    refine ⟨fun j c' hj => ?_, fun j hj => ?_, hm.callback, hm.owner, hm.below⟩
    · by_cases hji : j = i
      · subst hji
        obtain rfl : k m.data = c' := by simpa [Machine.next] using hj
        exact horderly m.data
      · exact hm.running j c' (by simpa [Machine.next, hji] using hj)
    · by_cases hji : j = i
      · subst hji
        simp [Machine.next]
      · simpa [Machine.next, hji] using hm.holder j hj
  | lock k =>
    obtain ⟨hfree, hk⟩ := horderly
    simp only [Machine.next]
    split
    · rename_i hnone
      refine ⟨fun j c' hj => ?_, fun j hj => ?_, fun host c' h => ?_, by simp, fun j c' h hj => ?_⟩
      · by_cases hji : j = i
        · subst hji
          obtain rfl : k = c' := by simpa using hj
          simpa using hk
        · have := hm.running j c' (by simpa [hji] using hj)
          simpa [hnone, Ne.symm hji] using this
      · obtain rfl : i = j := by simpa using hj
        simp
      · simpa [hnone] using hm.callback host c' h
      · obtain rfl : i = j := by simpa using hj
        exact (hbelow c' h).elim
    · exact hm
  | unlock k =>
    obtain ⟨hheld, hk⟩ := horderly
    rw [decide_eq_true_eq] at hheld
    refine ⟨fun j c' hj => ?_, by simp [Machine.next], fun host c' h => ?_, by simp [Machine.next],
      by simp [Machine.next]⟩
    · by_cases hji : j = i
      · subst hji
        obtain rfl : k = c' := by simpa [Machine.next] using hj
        simpa [Machine.next] using hk
      · have := hm.running j c' (by simpa [Machine.next, hji] using hj)
        simpa [Machine.next, hheld, Ne.symm hji] using this
    · simpa [Machine.next, hheld] using hm.callback host c' h

/-- A step of the callback. -/
theorem Machine.Fits.nextCallback {c : Code σ Unit} (hS : S.Orderly) (hm : m.Fits S)
    (hc : m.callback = some (host, c)) : (m.nextCallback host c).Fits S := by
  have horderly := hm.callback host c hc
  -- only at its own lock can the callback be on top of the process that has it
  have hbelow (i) (hi : host = some i) (hh : m.holder = some (some i)) : ∃ k, c = .lock k := by
    obtain ⟨k, hk⟩ := hS.locks
    exact ⟨k, by rw [hm.below i c (hi ▸ hc) hh, hk]⟩
  cases c with
  | ret r =>
    have hfree : m.holder ≠ some none := by simpa using horderly
    exact ⟨hm.running, hm.holder, by simp [Machine.nextCallback],
      fun h => (hfree h).elim, by simp [Machine.nextCallback]⟩
  | step f k =>
    refine ⟨hm.running, hm.holder, fun host' c' h => ?_, by simp [Machine.nextCallback],
      fun i c' h hi => ?_⟩
    · obtain ⟨rfl, rfl⟩ : host = host' ∧ k m.data = c' := by simpa [Machine.nextCallback] using h
      exact horderly m.data
    · obtain ⟨hhost, -⟩ : host = some i ∧ k m.data = c' := by simpa [Machine.nextCallback] using h
      obtain ⟨k', hk'⟩ := hbelow i hhost hi
      cases hk'
  | lock k =>
    obtain ⟨-, hk⟩ := horderly
    simp only [Machine.nextCallback]
    split
    · rename_i hnone
      refine ⟨fun j c' hj => ?_, by simp, fun host' c' h => ?_, by simp, by simp⟩
      · simpa [hnone] using hm.running j c' hj
      · obtain ⟨rfl, rfl⟩ : host = host' ∧ k = c' := by simpa using h
        simpa using hk
    · exact hm
  | unlock k =>
    obtain ⟨hheld, hk⟩ := horderly
    rw [decide_eq_true_eq] at hheld
    refine ⟨fun j c' hj => ?_, by simp [Machine.nextCallback], fun host' c' h => ?_,
      by simp [Machine.nextCallback], by simp [Machine.nextCallback]⟩
    · simpa [Machine.nextCallback, hheld] using hm.running j c' hj
    · obtain ⟨rfl, rfl⟩ : host = host' ∧ k = c' := by simpa [Machine.nextCallback] using h
      simpa [Machine.nextCallback] using hk

theorem Machine.Fits.step (hS : S.Orderly) (hm : m.Fits S) (h : S.step m a = some m') :
    m'.Fits S := by
  cases a with
  | call i c =>
    simp only [System.step] at h
    split at h <;> cases h
    rename_i hidle
    refine ⟨fun j c' hj => ?_, fun j hj => ?_, hm.callback, hm.owner, hm.below⟩
    · by_cases hji : j = i
      · subst hji
        obtain rfl : S.code c = c' := by simpa using hj
        have hfree : m.holder ≠ some (some j) := fun h => hm.holder j h hidle.1
        simpa [hfree] using hS.code c
      · exact hm.running j c' (by simpa [hji] using hj)
    · by_cases hji : j = i
      · subst hji
        simp
      · simpa [hji] using hm.holder j hj
  | run i =>
    simp only [System.step] at h
    split at h
    · cases h
    · rename_i hi
      obtain ⟨c, hc, rfl⟩ := Option.map_eq_some_iff.mp h
      exact hm.next hi hc
  | expire host =>
    simp only [System.step] at h
    split at h <;> cases h
    rename_i hexp
    have hfree : m.holder ≠ some none := fun h => hm.owner h hexp.1
    refine ⟨hm.running, hm.holder, fun host' c h => ?_, by simp, fun i c h hi => ?_⟩
    · obtain ⟨rfl, rfl⟩ : host = host' ∧ S.callback = c := by simpa using h
      simpa [hfree] using hS.callback
    · exact (by simpa using h : host = some i ∧ S.callback = c).2.symm
  | callback =>
    obtain ⟨⟨host, c⟩, hc, rfl⟩ := Option.map_eq_some_iff.mp h
    exact hm.nextCallback hS hc
  | event e =>
    cases h
    exact ⟨hm.running, hm.holder, hm.callback, hm.owner, hm.below⟩

theorem Machine.Fits.run (hS : S.Orderly) (hm : m.Fits S) (h : as.foldlM S.step m = some m') :
    m'.Fits S :=
  invariant_foldlM (fun _ _ _ hm ht => Machine.Fits.step hS hm ht) hm h

/-! ## Coming to rest -/

/-- The callback spins on top of process `i`, which has the lock. -/
def Machine.Stuck (m : Machine ι σ ρ) (i : ι) : Prop :=
  m.holder = some (some i) ∧ ∃ k, m.callback = some (some i, .lock k)

/-- Nobody has the lock, the callback does not run, and every call has returned. -/
structure Machine.AtRest (m : Machine ι σ ρ) : Prop where
  holder : m.holder = none
  callback : m.callback = none
  running : ∀ i, m.running i = none

theorem Machine.Stuck.step (hm : m.Fits S) (hs : m.Stuck i) (h : S.step m a = some m') :
    m'.Stuck i ∧ m'.callback = m.callback ∧ m'.returned i = m.returned i := by
  obtain ⟨hholder, k, hcallback⟩ := hs
  cases a with
  | call j c =>
    simp only [System.step] at h
    split at h <;> cases h
    exact ⟨⟨hholder, k, hcallback⟩, rfl, rfl⟩
  | run j =>
    simp only [System.step] at h
    split at h
    · cases h
    · rename_i hj
      obtain ⟨c, hc, rfl⟩ := Option.map_eq_some_iff.mp h
      have hij : i ≠ j := by
        rintro rfl
        exact hj (by simp [Under, hcallback])
      cases c with
      | ret r => exact ⟨⟨hholder, k, hcallback⟩, rfl, by simp [Machine.next, hij]⟩
      | step f k' => exact ⟨⟨hholder, k, hcallback⟩, rfl, rfl⟩
      | lock k' =>
        simp only [Machine.next, hholder, reduceCtorEq, if_false]
        exact ⟨⟨hholder, k, hcallback⟩, trivial, trivial⟩
      | unlock k' =>
        -- only who has the lock gives it back
        have := (hm.running j _ hc).1
        rw [hholder, decide_eq_true_eq] at this
        cases this
        exact (hij rfl).elim
  | expire host =>
    simp [System.step, hcallback] at h
  | callback =>
    simp only [System.step, hcallback, Option.map_some, Option.some.injEq] at h
    subst h
    simp only [Machine.nextCallback, hholder, reduceCtorEq, if_false]
    exact ⟨⟨hholder, k, hcallback⟩, trivial, trivial⟩
  | event e =>
    cases h
    exact ⟨⟨hholder, k, hcallback⟩, rfl, rfl⟩

/-- **Once stuck, the machine is stuck for good**: the callback never gets any further, and the call
below it never returns. -/
theorem Machine.Stuck.run (hS : S.Orderly) (hm : m.Fits S) (hs : m.Stuck i)
    (h : as.foldlM S.step m = some m') :
    m'.Stuck i ∧ m'.callback = m.callback ∧ m'.returned i = m.returned i := by
  have hrun := invariant_foldlM (I := fun n : Machine ι σ ρ => n.Fits S ∧
    n.Stuck i ∧ n.callback = m.callback ∧ n.returned i = m.returned i) ?_ ⟨hm, hs, rfl, rfl⟩ h
  · exact hrun.2
  · rintro n a n' ⟨hn, hns, hnc, hnr⟩ ht
    obtain ⟨hs', hc', hr'⟩ := hns.step hn ht
    exact ⟨hn.step hS ht, hs', hc'.trans hnc, hr'.trans hnr⟩

/-- A process that has the lock, with nothing on top of it, gives it back. -/
theorem Machine.Fits.release (hS : S.Orderly) {c : Code σ ρ} (hm : m.Fits S)
    (hi : m.holder = some (some i)) (hu : ¬ m.Under i) (hc : m.running i = some c) :
    ∃ (as : List (Action ι κ ε)) (m' : Machine ι σ ρ), as.foldlM S.step m = some m' ∧
      m'.holder = none ∧ m'.callback = m.callback := by
  induction c generalizing m with
  | ret r => exact absurd hi (by simpa using hm.running i _ hc)
  | step f k ih =>
    have hstep : S.step m (.run i) = some (m.next i (.step f k)) := by
      simp [System.step, hu, hc]
    obtain ⟨as, m', hrun, hfree, hcallback⟩ := ih m.data (m := m.next i (.step f k))
      (hm.step hS hstep) hi hu (by simp [Machine.next])
    exact ⟨.run i :: as, m', foldlM_cons_some.mpr ⟨_, hstep, hrun⟩, hfree, hcallback⟩
  | lock k ih => exact absurd hi (by simpa using (hm.running i _ hc).1)
  | unlock k ih =>
    have hstep : S.step m (.run i) = some (m.next i (.unlock k)) := by
      simp [System.step, hu, hc]
    exact ⟨[.run i], _, foldlM_cons_some.mpr ⟨_, hstep, rfl⟩, rfl, rfl⟩

omit [DecidableEq ι] in
theorem Machine.holder_eq_none (hprocess : ∀ i, m.holder ≠ some (some i))
    (hcallback : m.holder ≠ some none) : m.holder = none := by
  cases hh : m.holder with
  | none => rfl
  | some o =>
    cases o with
    | none => exact (hcallback hh).elim
    | some i => exact (hprocess i hh).elim

theorem System.step_callback {c : Code σ Unit} (hc : m.callback = some (host, c)) :
    S.step m .callback = some (m.nextCallback host c) := by
  simp [System.step, hc]

/-- The callback comes to its end, unless a process has the lock. -/
theorem Machine.Fits.finish (hS : S.Orderly) {c : Code σ Unit} (hm : m.Fits S)
    (hfree : ∀ i, m.holder ≠ some (some i)) (hc : m.callback = some (host, c)) :
    ∃ (as : List (Action ι κ ε)) (m' : Machine ι σ ρ), as.foldlM S.step m = some m' ∧
      (∀ a ∈ as, a = .callback) ∧ m'.holder = none ∧ m'.callback = none ∧
        m'.running = m.running := by
  have horderly := hm.callback host c hc
  have hcons {as : List (Action ι κ ε)} (has : ∀ a ∈ as, a = .callback) :
      ∀ a ∈ (.callback :: as : List (Action ι κ ε)), a = .callback :=
    List.forall_mem_cons.mpr ⟨rfl, has⟩
  induction c generalizing m with
  | ret r =>
    have hnone := m.holder_eq_none hfree (by simpa using horderly)
    exact ⟨[.callback], _, foldlM_cons_some.mpr ⟨_, S.step_callback hc, rfl⟩, by simp, hnone, rfl,
      rfl⟩
  | step f k ih =>
    have hstep := S.step_callback hc
    obtain ⟨as, m', hrun, has, hrest⟩ :=
      ih m.data (hm.step hS hstep) hfree rfl (horderly m.data)
    exact ⟨.callback :: as, m', foldlM_cons_some.mpr ⟨_, hstep, hrun⟩, hcons has, hrest⟩
  | lock k ih =>
    have hnone := m.holder_eq_none hfree (by simpa using horderly.1)
    have hstep : S.step m .callback =
        some { m with holder := some none, callback := some (host, k) } := by
      rw [S.step_callback hc, Machine.nextCallback, if_pos hnone]
    obtain ⟨as, m', hrun, has, hrest⟩ :=
      ih (hm.step hS hstep) (by simp) rfl (by simpa using horderly.2)
    exact ⟨.callback :: as, m', foldlM_cons_some.mpr ⟨_, hstep, hrun⟩, hcons has, hrest⟩
  | unlock k ih =>
    have hstep := S.step_callback hc
    obtain ⟨as, m', hrun, has, hrest⟩ := ih (hm.step hS hstep) (by simp [Machine.nextCallback]) rfl
      (by simpa [Machine.nextCallback] using horderly.2)
    exact ⟨.callback :: as, m', foldlM_cons_some.mpr ⟨_, hstep, hrun⟩, hcons has, hrest⟩

/-- While the callback does not run, a process comes to its end, unless another one has the lock. -/
theorem Machine.Fits.complete (hS : S.Orderly) {c : Code σ ρ} (hm : m.Fits S)
    (hfree : m.holder = none ∨ m.holder = some (some i)) (hcb : m.callback = none)
    (hc : m.running i = some c) :
    ∃ (as : List (Action ι κ ε)) (m' : Machine ι σ ρ), as.foldlM S.step m = some m' ∧
      m'.holder = none ∧ m'.callback = none ∧ m'.running = update m.running i none := by
  have horderly := hm.running i c hc
  have hstep : S.step m (.run i) = some (m.next i c) := by
    simp [System.step, Machine.Under, hcb, hc]
  induction c generalizing m with
  | ret r =>
    have hnone : m.holder = none := hfree.resolve_right (by simpa using horderly)
    exact ⟨[.run i], _, foldlM_cons_some.mpr ⟨_, hstep, rfl⟩, hnone, hcb, rfl⟩
  | step f k ih =>
    have hset : (m.next i (.step f k)).running i = some (k m.data) := update_self i _ _
    obtain ⟨as, m', hrun, hh, hcb', hr⟩ := ih m.data (hm.step hS hstep) hfree hcb hset
      (horderly m.data) (by simp [System.step, Machine.Under, Machine.next, hcb])
    exact ⟨.run i :: as, m', foldlM_cons_some.mpr ⟨_, hstep, hrun⟩, hh, hcb',
      hr.trans (update_idem _ _ _)⟩
  | lock k ih =>
    have hnone : m.holder = none := hfree.resolve_right (by simpa using horderly.1)
    rw [Machine.next, if_pos hnone] at hstep
    obtain ⟨as, m', hrun, hh, hcb', hr⟩ := ih (hm.step hS hstep) (.inr rfl) hcb
      (update_self i _ _) (by simpa using horderly.2) (by simp [System.step, Machine.Under, hcb])
    exact ⟨.run i :: as, m', foldlM_cons_some.mpr ⟨_, hstep, hrun⟩, hh, hcb',
      hr.trans (update_idem _ _ _)⟩
  | unlock k ih =>
    have hset : (m.next i (.unlock k)).running i = some k := update_self i _ _
    obtain ⟨as, m', hrun, hh, hcb', hr⟩ := ih (hm.step hS hstep) (.inl rfl) hcb hset
      (by simpa [Machine.next] using horderly.2)
      (by simp [System.step, Machine.Under, Machine.next, hcb])
    exact ⟨.run i :: as, m', foldlM_cons_some.mpr ⟨_, hstep, hrun⟩, hh, hcb',
      hr.trans (update_idem _ _ _)⟩

/-- The processes that run are in the list `l`. -/
def Machine.Among (m : Machine ι σ ρ) (l : List ι) : Prop := ∀ i, m.running i ≠ none → i ∈ l

/-- One after the other, the processes come to their ends. -/
theorem Machine.Fits.completeAll (hS : S.Orderly) (l : List ι) (hm : m.Fits S)
    (hfree : m.holder = none) (hcb : m.callback = none) (hl : m.Among l) :
    ∃ (as : List (Action ι κ ε)) (m' : Machine ι σ ρ), as.foldlM S.step m = some m' ∧
      m'.AtRest := by
  induction l generalizing m with
  | nil => exact ⟨[], m, rfl, hfree, hcb, fun i => by_contra fun hi => List.not_mem_nil (hl i hi)⟩
  | cons i l ih =>
    cases hi : m.running i with
    | none =>
      refine ih hm hfree hcb fun j hj => (List.mem_cons.mp (hl j hj)).resolve_left ?_
      rintro rfl
      exact hj hi
    | some c =>
      obtain ⟨as, m', hrun, hh, hcb', hr⟩ := hm.complete hS (.inl hfree) hcb hi
      have hl' : m'.Among l := fun j hj => by
        by_cases hji : j = i
        · subst hji
          rw [hr, update_self] at hj
          exact (hj rfl).elim
        · rw [hr, update_of_ne hji] at hj
          exact (List.mem_cons.mp (hl j hj)).resolve_left hji
      obtain ⟨bs, m'', hrun', hrest⟩ := ih (hm.run hS hrun) hh hcb' hl'
      exact ⟨as ++ bs, m'', foldlM_append_some.mpr ⟨m', hrun, hrun'⟩, hrest⟩

/-- A step starts at most one process. -/
theorem Machine.Among.step {l : List ι} (hl : m.Among l) (h : S.step m a = some m') :
    ∃ l', m'.Among l' := by
  have hset {i : ι} {c : Option (Code σ ρ)} {j : ι} (hj : update m.running i c j ≠ none) :
      j ∈ i :: l := by
    by_cases hji : j = i
    · exact hji ▸ List.mem_cons_self
    · rw [update_of_ne hji] at hj
      exact List.mem_cons_of_mem i (hl j hj)
  cases a with
  | call i c =>
    simp only [System.step] at h
    split at h <;> cases h
    exact ⟨i :: l, fun j hj => hset hj⟩
  | run i =>
    simp only [System.step] at h
    split at h
    · cases h
    · obtain ⟨c, -, rfl⟩ := Option.map_eq_some_iff.mp h
      cases c with
      | ret r => exact ⟨i :: l, fun j hj => hset hj⟩
      | step f k => exact ⟨i :: l, fun j hj => hset hj⟩
      | lock k =>
        simp only [Machine.next]
        split
        · exact ⟨i :: l, fun j hj => hset hj⟩
        · exact ⟨l, hl⟩
      | unlock k => exact ⟨i :: l, fun j hj => hset hj⟩
  | expire host =>
    simp only [System.step] at h
    split at h <;> cases h
    exact ⟨l, hl⟩
  | callback =>
    obtain ⟨⟨host, c⟩, -, rfl⟩ := Option.map_eq_some_iff.mp h
    cases c with
    | ret r | step f k | unlock k => exact ⟨l, hl⟩
    | lock k =>
      simp only [Machine.nextCallback]
      split <;> exact ⟨l, hl⟩
  | event e =>
    cases h
    exact ⟨l, hl⟩

theorem Machine.Among.run {l : List ι} (hl : m.Among l) (h : as.foldlM S.step m = some m') :
    ∃ l', m'.Among l' :=
  invariant_foldlM (I := fun m : Machine ι σ ρ => ∃ l, m.Among l)
    (fun _ _ _ ⟨_, hl⟩ ht => hl.step ht) ⟨l, hl⟩ h

omit [DecidableEq ι] in
theorem Machine.among_idle (s : σ) : (idle s : Machine ι σ ρ).Among [] := fun _ hi => (hi rfl).elim

/-- **A machine can come to rest unless it is stuck.** -/
theorem System.recovers_iff (hS : S.Orderly) (hm : m.Fits S) {l : List ι} (hl : m.Among l) :
    (∃ (as : List (Action ι κ ε)) (m' : Machine ι σ ρ), as.foldlM S.step m = some m' ∧ m'.AtRest) ↔
      ∀ i, ¬ m.Stuck i := by
  refine ⟨fun ⟨as, m', h, hrest⟩ i hs => ?_, fun hstuck => ?_⟩
  · obtain ⟨⟨hholder, -⟩, -⟩ := hs.run hS hm h
    rw [hrest.holder] at hholder
    cases hholder
  · -- first the lock is given back, then the callback runs to its end, then the processes do
    obtain ⟨as, m₁, hrun, hfree⟩ : ∃ (as : List (Action ι κ ε)) (m' : Machine ι σ ρ),
        as.foldlM S.step m = some m' ∧ ∀ i, m'.holder ≠ some (some i) := by
      by_cases hh : ∃ i, m.holder = some (some i)
      · obtain ⟨i, hi⟩ := hh
        obtain ⟨c, hc⟩ := Option.ne_none_iff_exists'.mp (hm.holder i hi)
        by_cases hu : m.Under i
        · obtain ⟨⟨host, c'⟩, hc', rfl⟩ := Option.map_eq_some_iff.mp hu
          obtain ⟨k, hk⟩ := hS.locks
          exact (hstuck i ⟨hi, k, by rw [hc', hm.below i c' hc' hi, hk]⟩).elim
        · obtain ⟨as, m', hrun, hfree, -⟩ := hm.release hS hi hu hc
          exact ⟨as, m', hrun, by simp [hfree]⟩
      · exact ⟨[], m, rfl, fun i hi => hh ⟨i, hi⟩⟩
    have hm₁ := hm.run hS hrun
    obtain ⟨bs, m₂, hrun', hh, hcb⟩ : ∃ (bs : List (Action ι κ ε)) (m' : Machine ι σ ρ),
        bs.foldlM S.step m₁ = some m' ∧ m'.holder = none ∧ m'.callback = none := by
      cases hcb : m₁.callback with
      | none => exact ⟨[], m₁, rfl, m₁.holder_eq_none hfree fun ho => hm₁.owner ho hcb, hcb⟩
      | some p =>
        obtain ⟨bs, m', hrun', -, hh, hcb', -⟩ := hm₁.finish hS hfree hcb
        exact ⟨bs, m', hrun', hh, hcb'⟩
    have hboth := foldlM_append_some.mpr ⟨m₁, hrun, hrun'⟩
    obtain ⟨l', hl'⟩ := hl.run hboth
    obtain ⟨cs, m₃, hrun'', hrest⟩ := (hm.run hS hboth).completeAll hS l' hh hcb hl'
    exact ⟨_, m₃, foldlM_append_some.mpr ⟨m₂, hboth, hrun''⟩, hrest⟩

/-! ## Contracts -/

/-- For an invariant of the data: what a process and the callback rely on between their steps, and
what a process guarantees with each of its own; the callback guarantees what a process relies on.
`calls` and `events` are those considered, and `A` are the processes that call. -/
structure Contract (S : System σ ρ κ ε) (A : Set ι) where
  inv : σ → Prop
  rely : σ → σ → Prop
  guar : σ → σ → Prop
  callbackRely : σ → σ → Prop
  calls : κ → Prop
  events : ε → Prop
  refl : ∀ s, rely s s ∧ callbackRely s s
  trans : ∀ s t u, rely s t → rely t u → rely s u
  callbackTrans : ∀ s t u, callbackRely s t → callbackRely t u → callbackRely s u
  code : ∀ c, calls c → ∀ s, inv s → (S.code c).Keeps rely guar inv s
  callback : ∀ s, inv s → S.expired s = true → rely s (S.detach s) ∧ inv (S.detach s) ∧
    S.callback.Keeps callbackRely rely inv (S.detach s)
  event : ∀ e, events e → ∀ s, inv s → rely s (S.event e s) ∧ callbackRely s (S.event e s) ∧
    inv (S.event e s)
  others : ∀ i ∈ A, ∀ j ∈ A, i ≠ j → ∀ s t, guar s t → rely s t
  above : ∀ i ∈ A, ∀ s t, guar s t → callbackRely s t

namespace Contract

variable {A : Set ι} (C : Contract S A)

/-- The action is one of those considered. -/
def Allows : Action ι κ ε → Prop
  | .call i c => i ∈ A ∧ C.calls c
  | .event e => C.events e
  | _ => True

/-- The invariant, and everyone is right where he is. -/
structure Holds (m : Machine ι σ ρ) : Prop where
  data : C.inv m.data
  running : ∀ i c, m.running i = some c → i ∈ A ∧ c.Keeps C.rely C.guar C.inv m.data
  callback : ∀ host c, m.callback = some (host, c) →
    c.Keeps C.callbackRely C.rely C.inv m.data

omit [DecidableEq ι] in
theorem holds_idle {s : σ} (hs : C.inv s) : C.Holds (.idle s) :=
  ⟨hs, by simp [Machine.idle], by simp [Machine.idle]⟩

variable {C}

omit [DecidableEq ι] in
/-- The data change as everyone relies on. -/
theorem Holds.change {s : σ} (hm : C.Holds m) (hs : C.inv s) (hr : C.rely m.data s)
    (hc : C.callbackRely m.data s) : C.Holds { m with data := s } where
  data := hs
  running i c hi :=
    ⟨(hm.running i c hi).1, (hm.running i c hi).2.mono fun u => C.trans _ _ u hr⟩
  callback host c h := (hm.callback host c h).mono fun u => C.callbackTrans _ _ u hc

theorem Holds.next {c : Code σ ρ} (hm : C.Holds m) (hc : m.running i = some c) :
    C.Holds (m.next i c) := by
  obtain ⟨hA, hkeeps⟩ := hm.running i c hc
  have hrefl := (C.refl m.data).1
  -- process `i` goes on with a procedure that is right there
  have hset (k : Code σ ρ) (holder : Option (Option ι)) (hk : k.Keeps C.rely C.guar C.inv m.data) :
      C.Holds { m with holder := holder, running := update m.running i (some k) } := by
    refine ⟨hm.data, fun j c' hj => ?_, hm.callback⟩
    by_cases hji : j = i
    · subst hji
      obtain rfl : k = c' := by simpa using hj
      exact ⟨hA, hk⟩
    · exact hm.running j c' (by simpa [hji] using hj)
  cases c with
  | ret r =>
    refine ⟨hm.data, fun j c' hj => ?_, hm.callback⟩
    by_cases hji : j = i
    · subst hji
      simp [Machine.next] at hj
    · exact hm.running j c' (by simpa [Machine.next, hji] using hj)
  | step f k =>
    obtain ⟨hg, hinv, hk⟩ := hkeeps m.data hrefl hm.data
    refine ⟨hinv, fun j c' hj => ?_, fun host c' h => ?_⟩
    · by_cases hji : j = i
      · subst hji
        obtain rfl : k m.data = c' := by simpa [Machine.next] using hj
        exact ⟨hA, hk⟩
      · obtain ⟨hjA, hj'⟩ := hm.running j c' (by simpa [Machine.next, hji] using hj)
        have hrely := C.others i hA j hjA (Ne.symm hji) _ _ hg
        exact ⟨hjA, hj'.mono fun u => C.trans _ _ u hrely⟩
    · exact (hm.callback host c' h).mono fun u => C.callbackTrans _ _ u (C.above i hA _ _ hg)
  | lock k =>
    simp only [Machine.next]
    split
    · exact hset k _ (hkeeps m.data hrefl hm.data)
    · exact hm
  | unlock k => exact hset k _ (hkeeps m.data hrefl hm.data)

omit [DecidableEq ι] in
theorem Holds.nextCallback {c : Code σ Unit} (hm : C.Holds m) (hc : m.callback = some (host, c)) :
    C.Holds (m.nextCallback host c) := by
  have hkeeps := hm.callback host c hc
  have hrefl := (C.refl m.data).2
  have hset (k : Code σ Unit) (holder : Option (Option ι))
      (hk : k.Keeps C.callbackRely C.rely C.inv m.data) :
      C.Holds { m with holder := holder, callback := some (host, k) } := by
    refine ⟨hm.data, hm.running, fun host' c' h => ?_⟩
    obtain ⟨-, rfl⟩ : host = host' ∧ k = c' := by simpa using h
    exact hk
  cases c with
  | ret r => exact ⟨hm.data, hm.running, by simp [Machine.nextCallback]⟩
  | step f k =>
    obtain ⟨hg, hinv, hk⟩ := hkeeps m.data hrefl hm.data
    refine ⟨hinv, fun j c' hj => ?_, fun host' c' h => ?_⟩
    · obtain ⟨hjA, hj'⟩ := hm.running j c' hj
      exact ⟨hjA, hj'.mono fun u => C.trans _ _ u hg⟩
    · obtain ⟨-, rfl⟩ : host = host' ∧ k m.data = c' := by simpa [Machine.nextCallback] using h
      exact hk
  | lock k =>
    simp only [Machine.nextCallback]
    split
    · exact hset k _ (hkeeps m.data hrefl hm.data)
    · exact hm
  | unlock k => exact hset k _ (hkeeps m.data hrefl hm.data)

theorem Holds.step (hm : C.Holds m) (ha : C.Allows a) (h : S.step m a = some m') :
    C.Holds m' := by
  cases a with
  | call i c =>
    simp only [System.step] at h
    split at h <;> cases h
    refine ⟨hm.data, fun j c' hj => ?_, hm.callback⟩
    by_cases hji : j = i
    · subst hji
      obtain rfl : S.code c = c' := by simpa using hj
      exact ⟨ha.1, C.code c ha.2 m.data hm.data⟩
    · exact hm.running j c' (by simpa [hji] using hj)
  | run i =>
    simp only [System.step] at h
    split at h
    · cases h
    · obtain ⟨c, hc, rfl⟩ := Option.map_eq_some_iff.mp h
      exact hm.next hc
  | expire host =>
    simp only [System.step] at h
    split at h <;> cases h
    rename_i hexp
    obtain ⟨hr, hinv, hkeeps⟩ := C.callback m.data hm.data hexp.2
    refine ⟨hinv, fun j c hj => ?_, fun host' c hc => ?_⟩
    · exact ⟨(hm.running j c hj).1, (hm.running j c hj).2.mono fun u => C.trans _ _ u hr⟩
    · obtain ⟨-, rfl⟩ : host = host' ∧ S.callback = c := by simpa using hc
      exact hkeeps
  | callback =>
    obtain ⟨⟨host, c⟩, hc, rfl⟩ := Option.map_eq_some_iff.mp h
    exact hm.nextCallback hc
  | event e =>
    cases h
    obtain ⟨hr, hc, hinv⟩ := C.event e ha m.data hm.data
    exact hm.change hinv hr hc

/-- **The invariant of a contract holds in every run of what it considers.** -/
theorem holds (hm : C.Holds m) (ha : ∀ a ∈ as, C.Allows a) (h : as.foldlM S.step m = some m') :
    C.Holds m' :=
  invariant_foldlM_of (fun _ _ _ hm ha ht => Holds.step hm ha ht) ha hm h

end Contract

end OSCompas.Softirq
