/-!
# Runs of a guarded transition system

A system is a step relation `R : State → Action → State → Prop`; a guard `ok` says which actions
are considered in which state.

* `Reaches R ok s t` — some finite run of guarded steps leads from `s` to `t`;
* `exec step ok s as` — the run of a partial step function along a list of actions, cut off
  where the guard fails;
* `Both R` — two copies of the system that take the same actions.

Principal results: `Reaches.invariant` (what a step preserves, a run preserves),
`Reaches.mono` and `reaches_of_exec` (an executed run is a run).
-/

set_option autoImplicit false

namespace OSCompas.Runs

variable {State Action : Type}

/-- States reached from `s₀` by steps of `R` taken under the guard `ok`. -/
inductive Reaches (R : State → Action → State → Prop) (ok : State → Action → Prop)
    (s₀ : State) : State → Prop where
  | refl : Reaches R ok s₀ s₀
  | step {s s' : State} {a : Action} : Reaches R ok s₀ s → ok s a → R s a s' →
      Reaches R ok s₀ s'

/-- The guard that excludes nothing. -/
def anyAction : State → Action → Prop := fun _ _ => True

variable {R : State → Action → State → Prop} {ok ok' : State → Action → Prop} {s t u : State}

theorem Reaches.trans (h : Reaches R ok s t) (h' : Reaches R ok t u) : Reaches R ok s u := by
  induction h' with
  | refl => exact h
  | step _ ha hs ih => exact .step ih ha hs

/-- A weaker guard admits more runs. -/
theorem Reaches.mono (h : Reaches R ok s t) (hok : ∀ s a, ok s a → ok' s a) :
    Reaches R ok' s t := by
  induction h with
  | refl => exact .refl
  | step _ ha hs ih => exact .step ih (hok _ _ ha) hs

/-- **What every guarded step preserves, every run preserves.** -/
theorem Reaches.invariant {I : State → Prop} (h : Reaches R ok s t) (h0 : I s)
    (hstep : ∀ s a s', I s → ok s a → R s a s' → I s') : I t := by
  induction h with
  | refl => exact h0
  | step _ ha hs ih => exact hstep _ _ _ ih ha hs

/-- Run a partial step function along a list of actions while the guard holds. -/
def exec (step : State → Action → Option State) (ok : State → Action → Bool) (s : State) :
    List Action → Option State
  | [] => some s
  | a :: as => if ok s a then (step s a).bind fun s' => exec step ok s' as else none

theorem reaches_of_exec {step : State → Action → Option State} {b : State → Action → Bool}
    (hb : ∀ s a, b s a = true → ok s a) (hR : ∀ s a s', step s a = some s' → R s a s')
    {as : List Action} (h : exec step b s as = some t) : Reaches R ok s t := by
  suffices ∀ r, Reaches R ok r s → Reaches R ok r t from this s .refl
  induction as generalizing s with
  | nil => intro r hr; cases h; exact hr
  | cons a as ih =>
    intro r hr
    rw [exec] at h
    split at h
    · rename_i hbs
      obtain ⟨s', hs, h⟩ := Option.bind_eq_some_iff.mp h
      exact ih h r (.step hr (hb _ _ hbs) (hR _ _ _ hs))
    · cases h

/-- Two copies of a system take a step by the same action. -/
def Both (R : State → Action → State → Prop) (s : State × State) (a : Action) (t : State × State) :
    Prop :=
  R s.1 a t.1 ∧ R s.2 a t.2

/-- **A relation that every pair of steps preserves relates the ends of two runs.** -/
theorem Reaches.related {Q : State → State → Prop} {s₁ s₂ t₁ t₂ : State}
    {both : State × State → Action → Prop} (h : Reaches (Both R) both (s₁, s₂) (t₁, t₂))
    (h0 : Q s₁ s₂) (hstep : ∀ s₁ s₂ a t₁ t₂, Q s₁ s₂ → both (s₁, s₂) a → R s₁ a t₁ → R s₂ a t₂ →
      Q t₁ t₂) : Q t₁ t₂ := by
  have hinv : ∀ s, Reaches (Both R) both (s₁, s₂) s → Q s.1 s.2 := by
    intro s hs
    apply hs.invariant h0
    intro s a s' hi hok hR
    exact hstep s.1 s.2 a s'.1 s'.2 hi hok hR.1 hR.2
  exact hinv _ h

/-- The step function of two copies. -/
def stepBoth (step : State → Action → Option State) (s : State × State) (a : Action) :
    Option (State × State) :=
  (step s.1 a).bind fun t => (step s.2 a).map fun u => (t, u)

theorem both_of_stepBoth {step : State → Action → Option State}
    (hR : ∀ s a s', step s a = some s' → R s a s') {s t : State × State} {a : Action}
    (h : stepBoth step s a = some t) : Both R s a t := by
  obtain ⟨t₁, h₁, h⟩ := Option.bind_eq_some_iff.mp h
  obtain ⟨t₂, h₂, rfl⟩ := Option.map_eq_some_iff.mp h
  exact ⟨hR _ _ _ h₁, hR _ _ _ h₂⟩

end OSCompas.Runs
