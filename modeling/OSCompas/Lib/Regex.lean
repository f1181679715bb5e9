import Mathlib.Logic.Function.Basic
import Mathlib.Data.List.TakeWhile

/-!
# Regular expressions that backtrack

Patterns over characters with greedy and reluctant repetitions of a class, groups and an optional
part, matched at the beginning of a text.  Nothing here names a program.

* `ways` — the ways in which a pattern matches, in the order in which a backtracking engine tries
  them;
* `matchAt` — the first of them;
* `Leads` — the first way, when all others stop in front of a character of a class.

Principal results: `Leads.plus`, `Leads.ways_seq` and `ways_seq_char`.
-/

set_option autoImplicit false

namespace OSCompas.Regex

open Function

inductive Pattern
  /-- One character of a class. -/
  | char (p : Char → Bool)
  /-- `[p]+` -/
  | plus (p : Char → Bool)
  /-- `[p]*?` -/
  | lazyStar (p : Char → Bool)
  /-- `(r)`, the group with this number. -/
  | group (n : Nat) (r : Pattern)
  /-- `(?:r)?` -/
  | opt (r : Pattern)
  | seq (r r' : Pattern)

/-- The groups so far, and the rest of the text. -/
structure Match where
  groups : Nat → Option (List Char)
  rest : List Char

/-- What is left behind one or more characters of the class, after as many as possible first. -/
def plusRests (p : Char → Bool) : List Char → List (List Char)
  | [] => []
  | c :: l => if p c then plusRests p l ++ [l] else []

/-- What is left behind any number of characters of the class, after as few as possible first. -/
def lazyRests (p : Char → Bool) : List Char → List (List Char)
  | [] => [[]]
  | c :: l => (c :: l) :: if p c then lazyRests p l else []

/-- The text in front of the rest. -/
def before (text rest : List Char) : List Char := text.take (text.length - rest.length)

/-- The ways in which the pattern matches, in the order in which they are tried. -/
def ways : Pattern → Match → List Match
  | .char p, s =>
    match s.rest with
    | c :: l => if p c then [{ s with rest := l }] else []
    | [] => []
  | .plus p, s => (plusRests p s.rest).map fun rest => { s with rest }
  | .lazyStar p, s => (lazyRests p s.rest).map fun rest => { s with rest }
  | .group n r, s =>
    (ways r s).map fun s' => { s' with groups := update s'.groups n (before s.rest s'.rest) }
  | .opt r, s => ways r s ++ [s]
  | .seq r r', s => (ways r s).flatMap (ways r')

/-- The match at the beginning of the text. -/
def matchAt (r : Pattern) (text : List Char) : Option Match :=
  (ways r ⟨fun _ => none, text⟩).head?

/-- The character itself. -/
def lit (c : Char) : Pattern := .char (· == c)

variable {p q : Char → Bool} {g : Nat → Option (List Char)} {c : Char} {l w rest : List Char}
  {r r' : Pattern} {s s' : Match} {n : Nat}

@[simp] theorem before_append : before (w ++ rest) rest = w := by
  simp [before]

/-! ## One step -/

theorem ways_seq : ways (.seq r r') s = (ways r s).flatMap (ways r') := rfl

theorem ways_group :
    ways (.group n r) s =
      (ways r s).map fun s' => { s' with groups := update s'.groups n (before s.rest s'.rest) } :=
  rfl

theorem ways_lit : ways (lit c) ⟨g, c :: l⟩ = [⟨g, l⟩] := by
  simp [lit, ways]

theorem ways_seq_lit : ways (.seq (lit c) r) ⟨g, c :: l⟩ = ways r ⟨g, l⟩ := by
  rw [ways_seq, ways_lit, List.flatMap_singleton]

theorem ways_seq_lit_nil : ways (.seq (lit c) r) ⟨g, []⟩ = [] := by
  simp [lit, ways]

theorem ways_seq_lit_ne {d : Char} (h : d ≠ c) : ways (.seq (lit c) r) ⟨g, d :: l⟩ = [] := by
  simp [lit, ways, h]

/-! ## Dead ends -/

/-- The text begins with a character of the class. -/
def StartsIn (p : Char → Bool) (l : List Char) : Prop := ∃ c l', l = c :: l' ∧ p c = true

/-- No match begins with a character of the class. -/
def Rejects (r : Pattern) (p : Char → Bool) : Prop := ∀ g l, StartsIn p l → ways r ⟨g, l⟩ = []

theorem Rejects.seq (h : Rejects r p) : Rejects (.seq r r') p := by
  intro g l hl
  rw [ways_seq, h g l hl, List.flatMap_nil]

theorem rejects_char (h : ∀ c, p c = true → q c = false) : Rejects (.char q) p := by
  rintro g _ ⟨c, l, rfl, hc⟩
  simp [ways, h c hc]

theorem plusRests_nil (h : p c = false) : plusRests p (c :: l) = [] := by
  simp [plusRests, h]

theorem rejects_plus (h : ∀ c, p c = true → q c = false) : Rejects (.plus q) p := by
  rintro g _ ⟨c, l, rfl, hc⟩
  simp [ways, plusRests_nil (h c hc)]

theorem Rejects.group (h : Rejects r p) : Rejects (.group n r) p := by
  intro g l hl
  rw [ways_group, h g l hl, List.map_nil]

/-! ## The first way -/

/-- The first way is `s'`, and all others stop in front of a character of the class. -/
def Leads (r : Pattern) (s s' : Match) (p : Char → Bool) : Prop :=
  ∃ others, ways r s = s' :: others ∧ ∀ o ∈ others, StartsIn p o.rest

theorem plusRests_eq_nil (h : ¬ StartsIn p l) : plusRests p l = [] := by
  cases l with
  | nil => rfl
  | cons c l =>
    apply plusRests_nil
    rw [← Bool.not_eq_true]
    exact fun hc => h ⟨c, l, rfl, hc⟩

theorem not_startsIn_dropWhile (p : Char → Bool) (l : List Char) :
    ¬ StartsIn p (l.dropWhile p) := by
  rintro ⟨c, l', hl, hc⟩
  have hne : l.dropWhile p ≠ [] := by simp [hl]
  have hhead := List.head_dropWhile_not p hne
  simp [hl, hc] at hhead

theorem not_startsIn_of_takeWhile {p : Char → Bool} (h : l.takeWhile p = []) : ¬ StartsIn p l := by
  rintro ⟨c, l', rfl, hc⟩
  rw [List.takeWhile_cons_of_pos hc] at h
  cases h

/-- A character in front of which a class stops. -/
theorem not_startsIn_cons (hc : p c = false) : ¬ StartsIn p (c :: l) := by
  rintro ⟨d, l', hl, hd⟩
  rw [← (List.cons.inj hl).1, hc] at hd
  cases hd

theorem all_takeWhile (p : Char → Bool) (l : List Char) : ∀ c ∈ l.takeWhile p, p c = true :=
  fun _ hc => List.mem_takeWhile_imp hc

/-- As many characters of the class as there are. -/
theorem plusRests_append (hw : w ≠ []) (hp : ∀ c ∈ w, p c = true) (hrest : ¬ StartsIn p rest) :
    ∃ others, plusRests p (w ++ rest) = rest :: others ∧ ∀ o ∈ others, StartsIn p o := by
  induction w with
  | nil => exact absurd rfl hw
  | cons c w ih =>
    have hc := hp c List.mem_cons_self
    rw [List.cons_append, plusRests, if_pos hc]
    cases w with
    | nil =>
      exact ⟨[], by rw [List.nil_append, plusRests_eq_nil hrest, List.nil_append], by simp⟩
    | cons d w =>
      obtain ⟨others, hrests, hothers⟩ := ih (by simp) fun e he => hp e (List.mem_cons_of_mem _ he)
      refine ⟨others ++ [d :: w ++ rest], by rw [hrests, List.cons_append], fun o ho => ?_⟩
      rcases List.mem_append.mp ho with ho | ho
      · exact hothers o ho
      · rw [List.mem_singleton.mp ho]
        exact ⟨d, _, rfl, hp d (by simp)⟩

/-- And one less, if there is another. -/
theorem plusRests_append_two (hw : w ≠ []) (hp : ∀ d ∈ w, p d = true) (hc : p c = true)
    (hrest : ¬ StartsIn p rest) :
    ∃ others, plusRests p (w ++ c :: rest) = rest :: (c :: rest) :: others := by
  induction w with
  | nil => exact absurd rfl hw
  | cons d w ih =>
    rw [List.cons_append, plusRests, if_pos (hp d List.mem_cons_self)]
    cases w with
    | nil =>
      have hone : plusRests p (c :: rest) = [rest] := by
        rw [plusRests, if_pos hc, plusRests_eq_nil hrest, List.nil_append]
      exact ⟨[], by rw [List.nil_append, hone, List.singleton_append]⟩
    | cons e w =>
      obtain ⟨others, hrests⟩ := ih (by simp) fun f hf => hp f (List.mem_cons_of_mem _ hf)
      exact ⟨others ++ [e :: w ++ c :: rest], by rw [hrests, List.cons_append, List.cons_append]⟩

theorem Leads.plus (hw : w ≠ []) (hp : ∀ c ∈ w, p c = true) (hrest : ¬ StartsIn p rest) :
    Leads (.plus p) ⟨g, w ++ rest⟩ ⟨g, rest⟩ p := by
  obtain ⟨others, hrests, hothers⟩ := plusRests_append hw hp hrest
  refine ⟨others.map fun rest => ⟨g, rest⟩, by simp [ways, hrests], fun o ho => ?_⟩
  obtain ⟨l, hl, rfl⟩ := List.mem_map.mp ho
  exact hothers l hl

theorem Leads.group (h : Leads r ⟨g, w ++ rest⟩ ⟨g, rest⟩ p) :
    Leads (.group n r) ⟨g, w ++ rest⟩ ⟨update g n w, rest⟩ p := by
  obtain ⟨others, hways, hothers⟩ := h
  refine ⟨others.map fun o => { o with groups := update o.groups n (before (w ++ rest) o.rest) },
    by simp [ways_group, hways], fun o ho => ?_⟩
  obtain ⟨o', ho', rfl⟩ := List.mem_map.mp ho
  exact hothers o' ho'

/-- **What follows goes on behind the first way, if it matches no character of the class.** -/
theorem Leads.ways_seq (h : Leads r s s' p) (hr : Rejects r' p) :
    ways (.seq r r') s = ways r' s' := by
  obtain ⟨others, hways, hothers⟩ := h
  have hdead : others.flatMap (ways r') = [] :=
    List.flatMap_eq_nil_iff.mpr fun o ho => hr o.groups o.rest (hothers o ho)
  rw [Regex.ways_seq, hways, List.flatMap_cons, hdead, List.append_nil]

/-- A run of characters of a class and then another character. -/
theorem ways_plus_lit (hw : w ≠ []) (hp : ∀ d ∈ w, p d = true) (hc : p c = false) :
    ways (.seq (.plus p) (.seq (lit c) r)) ⟨g, w ++ c :: l⟩ = ways r ⟨g, l⟩ := by
  have hreject : Rejects (.seq (lit c) r) p := by
    apply Rejects.seq (rejects_char fun d hd => ?_)
    rw [beq_eq_false_iff_ne]
    rintro rfl
    rw [hc] at hd
    cases hd
  rw [(Leads.plus hw hp (not_startsIn_cons hc)).ways_seq hreject, ways_seq_lit]

/-- A sequence that goes on behind `s'` has the ways of its last part. -/
theorem Leads.of_ways {s'' : Match} (h : ways r s = ways r' s') (hr : Leads r' s' s'' p) :
    Leads r s s'' p := by
  obtain ⟨others, hways, hothers⟩ := hr
  exact ⟨others, h.trans hways, hothers⟩

end OSCompas.Regex
