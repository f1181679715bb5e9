import Mathlib.Data.List.TakeWhile
import Mathlib.Tactic.Common

/-!
# Words

The words of a text: the pieces between its separators, without the empty ones.  Nothing here names
a program.

* `words sep t` — the words;
* `Solid sep w` — one word;
* `spaced fs` — words with a blank in front of each;
* `deal sep n t` — the words given out to `n` names, of which the last takes what is left.

Principal results: `words_spaced`, `two_le_words` and `deal_getD`.
-/

set_option autoImplicit false

namespace OSCompas.Words

/-- The maximal runs of characters that are not separators. -/
def words (sep : Char → Bool) (t : List Char) : List (List Char) :=
  (t.splitOnP sep).filter (· ≠ [])

/-- A word. -/
structure Solid (sep : Char → Bool) (w : List Char) : Prop where
  nonempty : w ≠ []
  clean : ∀ c ∈ w, sep c = false

/-- A blank in front of each. -/
def spaced (fs : List (List Char)) : List Char := fs.flatMap (' ' :: ·)

variable {sep : Char → Bool} {t w a b : List Char} {c : Char} {fs : List (List Char)} {n i : Nat}

/-! ## Separators -/

@[simp] theorem words_nil : words sep [] = [] := rfl

/-- A separator separates. -/
theorem words_append_cons (hc : sep c = true) :
    words sep (a ++ c :: b) = words sep a ++ words sep b := by
  unfold words
  rw [List.splitOnP_append_cons _ _ hc, List.filter_append]

theorem words_cons_sep (hc : sep c = true) : words sep (c :: t) = words sep t :=
  words_append_cons (a := []) hc

theorem words_concat_sep (hc : sep c = true) : words sep (t ++ [c]) = words sep t := by
  rw [words_append_cons hc, words_nil, List.append_nil]

theorem Solid.words (h : Solid sep w) : words sep w = [w] := by
  unfold Words.words
  rw [List.splitOnP_eq_singleton h.clean, List.filter_cons_of_pos, List.filter_nil]
  simpa using h.nonempty

/-- Words with a blank in front of each are these words. -/
theorem words_spaced (hsep : sep ' ' = true) (hfs : ∀ f ∈ fs, Solid sep f) :
    words sep (a ++ spaced fs) = words sep a ++ fs := by
  induction fs generalizing a with
  | nil => simp [spaced]
  | cons f fs ih =>
    have hrest := ih (a := f) fun g hg => hfs g (List.mem_cons_of_mem f hg)
    have hcons : a ++ spaced (f :: fs) = a ++ ' ' :: (f ++ spaced fs) := by simp [spaced]
    rw [hcons, words_append_cons hsep, hrest, (hfs f List.mem_cons_self).words]
    rfl

/-- The words, one by one. -/
theorem words_eq (sep : Char → Bool) (t : List Char) : words sep t =
    match t.dropWhile sep with
    | [] => []
    | c :: t => (c :: t).takeWhile (! sep ·) :: words sep ((c :: t).dropWhile (! sep ·)) := by
  induction t with
  | nil => rfl
  | cons c t ih =>
    cases hc : sep c with
    | true => rw [words_cons_sep hc, ih, List.dropWhile_cons_of_pos hc]
    | false =>
      rw [List.dropWhile_cons_of_neg (by simp [hc])]
      dsimp only
      have hsplit := List.takeWhile_append_dropWhile (p := (! sep ·)) (l := c :: t)
      have hsolid : Solid sep ((c :: t).takeWhile (! sep ·)) := by
        refine ⟨by simp [hc], fun d hd => ?_⟩
        simpa using List.mem_takeWhile_imp hd
      generalize (c :: t).takeWhile (! sep ·) = w at hsplit hsolid
      cases hrest : (c :: t).dropWhile (! sep ·) with
      | nil =>
        rw [hrest, List.append_nil] at hsplit
        rw [words_nil, ← hsolid.words, hsplit]
      | cons d rest =>
        have hd : sep d = true := by
          have hne : (c :: t).dropWhile (! sep ·) ≠ [] := by
            rw [hrest]
            exact List.cons_ne_nil d rest
          have hhead := List.head_dropWhile_not (! sep ·) hne
          simpa [hrest] using hhead
        rw [hrest] at hsplit
        rw [words_cons_sep hd, ← hsplit, words_append_cons hd, hsolid.words]
        rfl

/-- A text that is not blank has a word. -/
theorem words_ne_nil (hc : c ∈ t) (hsep : sep c = false) : words sep t ≠ [] := by
  rw [words_eq]
  split
  · rename_i hblank
    have hall := List.dropWhile_eq_nil_iff.mp hblank c hc
    rw [hsep] at hall
    cases hall
  · exact List.cons_ne_nil _ _

/-- A separator inside makes two words. -/
theorem two_le_words (hc : sep c = true) {d e : Char} (hd : d ∈ a) (hd' : sep d = false)
    (he : e ∈ b) (he' : sep e = false) : 2 ≤ (words sep (a ++ c :: b)).length := by
  have h1 := List.length_pos_iff.mpr (words_ne_nil hd hd')
  have h2 := List.length_pos_iff.mpr (words_ne_nil he he')
  rw [words_append_cons hc, List.length_append]
  omega

/-! ## Dealing -/

/-- One word for each of `n` names, but all that is left for the last. -/
def deal (sep : Char → Bool) : Nat → List Char → List (List Char)
  | 0, _ => []
  | 1, t => [((t.dropWhile sep).reverse.dropWhile sep).reverse]
  | n + 2, t =>
    let t := t.dropWhile sep
    t.takeWhile (! sep ·) :: deal sep (n + 1) (t.dropWhile (! sep ·))

/-- All names but the last get their word, or nothing. -/
theorem deal_getD (h : i + 1 < n) : (deal sep n t).getD i [] = (words sep t).getD i [] := by
  induction n generalizing i t with
  | zero => omega
  | succ n ih =>
    obtain ⟨n, rfl⟩ : ∃ m, n = m + 1 := ⟨n - 1, by omega⟩
    rw [deal, words_eq]
    cases hrest : t.dropWhile sep with
    | nil =>
      cases i with
      | zero => rfl
      | succ i =>
        have hi := ih (i := i) (t := []) (by omega)
        simpa using hi
    | cons c t =>
      cases i with
      | zero => rfl
      | succ i => exact ih (by omega)

end OSCompas.Words
