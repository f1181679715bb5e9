import Mathlib.Data.List.Basic

/-!
# Progress along a run

A partial step function `step` is run along a list of actions, `as.foldlM step s`. Some actions are
ticks of the one party that has to act before a goal is met; the others interleave with them freely.

* `Ranked` — a rank that every tick before the goal lowers and no other action raises.

Principal results: `invariant_foldlM` (what a step keeps, a run keeps) and `Ranked.reached`: a run
with more ticks than the rank it starts from meets the goal.
-/

set_option autoImplicit false

namespace OSCompas.Progress

variable {State Action : Type} {step : State → Action → Option State} {s t u : State}
  {as bs : List Action}

/-! ## Runs along a list of actions -/

theorem foldlM_cons_some {a : Action} :
    (a :: as).foldlM step s = some t ↔ ∃ u, step s a = some u ∧ as.foldlM step u = some t := by
  rw [List.foldlM_cons]
  exact Option.bind_eq_some_iff

theorem foldlM_append_some :
    (as ++ bs).foldlM step s = some t ↔
      ∃ u, as.foldlM step s = some u ∧ bs.foldlM step u = some t := by
  rw [List.foldlM_append]
  exact Option.bind_eq_some_iff

/-- **What every step by an admitted action keeps, every run of them keeps.** -/
theorem invariant_foldlM_of {I : State → Prop} {ok : Action → Prop}
    (hI : ∀ s a t, I s → ok a → step s a = some t → I t) (hok : ∀ a ∈ as, ok a) (hs : I s)
    (h : as.foldlM step s = some t) : I t := by
  induction as generalizing s with
  | nil =>
    cases h
    exact hs
  | cons a as ih =>
    obtain ⟨u, hu, h⟩ := foldlM_cons_some.mp h
    have hu : I u := hI s a u hs (hok a List.mem_cons_self) hu
    exact ih (fun b hb => hok b (List.mem_cons_of_mem a hb)) hu h

/-- **What every step keeps, every run keeps.** -/
theorem invariant_foldlM {I : State → Prop} (hI : ∀ s a t, I s → step s a = some t → I t)
    (hs : I s) (h : as.foldlM step s = some t) : I t :=
  invariant_foldlM_of (fun s a t hs _ => hI s a t hs) (fun _ _ => trivial) hs h

/-! ## A falling rank -/

/-- Until `goal` holds, a tick lowers `rank` and no other action raises it; once it holds it
stays. -/
structure Ranked (step : State → Action → Option State) (tick : Action → Bool)
    (I goal : State → Prop) (rank : State → Nat) : Prop where
  keeps : ∀ s a t, I s → step s a = some t → I t
  stays : ∀ s a t, I s → goal s → step s a = some t → goal t
  falls : ∀ s a t, I s → ¬ goal s → tick a = true → step s a = some t → goal t ∨ rank t < rank s
  rests : ∀ s a t, I s → ¬ goal s → tick a = false → step s a = some t → goal t ∨ rank t ≤ rank s

variable {tick : Action → Bool} {I goal : State → Prop} {rank : State → Nat}

theorem Ranked.goal_stays (h : Ranked step tick I goal rank) (hs : I s) (hg : goal s)
    (hrun : as.foldlM step s = some t) : goal t := by
  have hkeep : ∀ s a t, I s ∧ goal s → step s a = some t → I t ∧ goal t :=
    fun s a t hs ht => ⟨h.keeps s a t hs.1 ht, h.stays s a t hs.1 hs.2 ht⟩
  exact (invariant_foldlM hkeep ⟨hs, hg⟩ hrun).2

/-- **A run with more ticks than its rank meets the goal**, however the other actions
interleave. -/
theorem Ranked.reached (h : Ranked step tick I goal rank) (hs : I s)
    (hrun : as.foldlM step s = some t) (hlong : rank s < as.countP tick) : goal t := by
  induction as generalizing s with
  | nil => cases hlong
  | cons a as ih =>
    by_cases hg : goal s
    · exact h.goal_stays hs hg hrun
    obtain ⟨u, hu, hrun⟩ := foldlM_cons_some.mp hrun
    have hIu := h.keeps s a u hs hu
    rw [List.countP_cons] at hlong
    cases ha : tick a with
    | false =>
      obtain hgu | hle := h.rests s a u hs hg ha hu
      · exact h.goal_stays hIu hgu hrun
      · apply ih hIu hrun
        simp only [ha, Bool.false_eq_true, if_false] at hlong
        omega
    | true =>
      obtain hgu | hlt := h.falls s a u hs hg ha hu
      · exact h.goal_stays hIu hgu hrun
      · apply ih hIu hrun
        simp only [ha, if_true] at hlong
        omega

end OSCompas.Progress
