import Mathlib.Data.List.Perm.Basic

/-!
# Things that are taken and given back

A program takes things, uses them and gives them back; a thing that is taken twice is held twice.
Using or giving back what is not held is an error.  Nothing here names a program.

* `Event` — what the program does;
* `run` — what is held afterwards, if there was no error.

Principal results: `run_append`, `run_undo` and `run_release_iff`.
-/

set_option autoImplicit false

namespace OSCompas.Holdings

inductive Event (α : Type) where
  | acquire (a : α)
  | use (a : α)
  | release (a : α)
  deriving DecidableEq, Repr

variable {α : Type} [DecidableEq α]

/-- What is held after an event. -/
def Event.step (held : List α) : Event α → Option (List α)
  | .acquire a => some (a :: held)
  | .use a => if a ∈ held then some held else none
  | .release a => if a ∈ held then some (held.erase a) else none

/-- What is held after the events. -/
def run : List α → List (Event α) → Option (List α)
  | held, [] => some held
  | held, e :: es => (e.step held).bind fun held' => run held' es

variable {held held' : List α} {a : α} {es : List (Event α)}

@[simp] theorem run_nil (held : List α) : run held [] = some held := rfl

@[simp] theorem run_acquire (held : List α) (a : α) (es : List (Event α)) :
    run held (.acquire a :: es) = run (a :: held) es := rfl

theorem run_use_of_mem (h : a ∈ held) (es : List (Event α)) :
    run held (.use a :: es) = run held es := by
  rw [run, Event.step, if_pos h, Option.bind_some]

theorem run_use_of_not_mem (h : a ∉ held) (es : List (Event α)) :
    run held (.use a :: es) = none := by
  rw [run, Event.step, if_neg h, Option.bind_none]

theorem run_release_of_mem (h : a ∈ held) (es : List (Event α)) :
    run held (.release a :: es) = run (held.erase a) es := by
  rw [run, Event.step, if_pos h, Option.bind_some]

theorem run_release_of_not_mem (h : a ∉ held) (es : List (Event α)) :
    run held (.release a :: es) = none := by
  rw [run, Event.step, if_neg h, Option.bind_none]

/-- **One list of events after the other.** -/
theorem run_append (held : List α) (es es' : List (Event α)) :
    run held (es ++ es') = (run held es).bind fun held' => run held' es' := by
  induction es generalizing held with
  | nil => rfl
  | cons e es ih =>
    rw [List.cons_append, run, run, Option.bind_assoc]
    exact congrArg _ (funext fun held' => ih held')

theorem run_map_acquire (held rs : List α) :
    run held (rs.map .acquire) = some (rs.reverse ++ held) := by
  induction rs generalizing held with
  | nil => rfl
  | cons a rs ih => rw [List.map_cons, run_acquire, ih, List.reverse_cons, List.append_assoc,
      List.singleton_append]

theorem run_map_release (held rs : List α) : run (rs ++ held) (rs.map .release) = some held := by
  induction rs with
  | nil => rfl
  | cons a rs ih =>
    rw [List.map_cons, List.cons_append, run_release_of_mem List.mem_cons_self,
      List.erase_cons_head, ih]

/-- **What is taken and given back in the opposite order is not held.** -/
theorem run_undo (held rs : List α) :
    run held (rs.map .acquire ++ rs.reverse.map .release) = some held := by
  rw [run_append, run_map_acquire, Option.bind_some, run_map_release]

/-- **Giving things back ends with nothing held exactly when they are what is held**, each as often
as it was taken. -/
theorem run_release_iff (held rs : List α) :
    run held (rs.map .release) = some [] ↔ rs.Perm held := by
  induction rs generalizing held with
  | nil =>
    rw [List.map_nil, run_nil, List.nil_perm, Option.some.injEq]
  | cons a rs ih =>
    rw [List.map_cons, List.cons_perm_iff_perm_erase]
    by_cases h : a ∈ held
    · rw [run_release_of_mem h, ih]
      exact (and_iff_right h).symm
    · rw [run_release_of_not_mem h]
      exact iff_of_false (by simp) fun hr => h hr.1

end OSCompas.Holdings
