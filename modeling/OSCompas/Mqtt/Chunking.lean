import OSCompas.Lib.Pieces
import OSCompas.Mqtt.Client
import OSCompas.Mqtt.Wifi

/-!
# Replies in pieces (`lab5-2-iot-sensor-rtos/src/wifi_esp8266.c`)

`esp8266_send_cmd` looks for the expected text, for `ERROR` and for `FAIL` in what one call of
`rt_device_read` returned; what was read before is overwritten.  `rt_strstr` stops at a zero.

* `sendCmd` — `esp8266_send_cmd` with any text as the command;
* `Delivers` — the turns of the waiting loop that read a given stream in time;
* `judge` — what the loop says about one piece;
* `Uniform` — the result does not depend on the pieces, and it is the one that the stream calls for;
* `Unmissable` — a character of the stream that is found in every piece it can be in.

Principal results: `waitReply_eq`, `exists_evading` and `uniform_iff`.
-/

set_option autoImplicit false

namespace OSCompas.Wifi

open Pieces Mqtt

/-! ## The code -/

/-- `esp8266_send_cmd`: the result, what is written to the line, and what is read. -/
def sendCmd (cmd expect : CString) (timeout : Nat) (replies : Replies) :
    RtErr × List UInt8 × List Uart :=
  let waited := waitReply expect.chars timeout replies.turns
  (waited.1, cmd.chars, replies.stale.map .received ++ waited.2)

/-- The commands of `wifi_send_tcp` are waited for in the same way. -/
theorem esp8266SendCmd_result (c : AtCommand) (cmd expect : CString) (timeout : Nat)
    (replies : Replies) : (esp8266SendCmd c expect.chars timeout replies).1 =
      (sendCmd cmd expect timeout replies).1 := rfl

def Turn.elapsed : Turn → Nat
  | .silence elapsed => elapsed
  | .wake _ elapsed => elapsed

/-- What is read in a turn. -/
def Turn.read : Turn → List UInt8
  | .silence _ => []
  | .wake chunk _ => chunk

/-- The pieces that are read. -/
def piecesRead (turns : List Turn) : List (List UInt8) := (turns.map Turn.read).filter (· ≠ [])

/-- The stream is read in these turns, before the timeout and at most 511 bytes at a time. -/
structure Delivers (timeout : Nat) (stream : List UInt8) (turns : List Turn) : Prop where
  cut : Cut 511 stream (piecesRead turns)
  in_time : ∀ t ∈ turns, t.elapsed ≤ timeout
  ordered : (turns.map Turn.elapsed).Pairwise (· ≤ ·)

/-- The texts that end the waiting with an error. -/
def failures : List (List UInt8) :=
  [ascii ['E', 'R', 'R', 'O', 'R'], ascii ['F', 'A', 'I', 'L']]

def Failed (l : List UInt8) : Prop := ∃ w ∈ failures, w <:+: l

/-- The expected text has come before `ERROR` or `FAIL` has. -/
def OkFirst (expect stream : List UInt8) : Prop :=
  ∃ p, p <+: stream ∧ expect <:+: p ∧ ¬ Failed p

def ErrorFirst (expect stream : List UInt8) : Prop :=
  ∃ p, p <+: stream ∧ ¬ expect <:+: p ∧ Failed p

/-- The result is the same for every way of cutting the stream: `RT_EOK` if the expected text comes
first, `-RT_ERROR` if an error does. -/
def Uniform (cmd expect : CString) (timeout : Nat) (stream : List UInt8) : Prop :=
  ∃ r, (∀ replies, Delivers timeout stream replies.turns →
      (sendCmd cmd expect timeout replies).1 = r) ∧
    (OkFirst expect.chars stream → r = .ok) ∧ (ErrorFirst expect.chars stream → r = .error)

/-! ## One piece -/

variable {expect stream p w s t : List UInt8} {ps : List (List UInt8)} {turns : List Turn}
  {timeout : Nat} {c : UInt8} {r : RtErr}

/-- What `rt_strstr` sees of a piece. -/
def visible (p : List UInt8) : List UInt8 := p.takeWhile (· ≠ 0)

theorem visible_isPrefix (p : List UInt8) : visible p <+: p := List.takeWhile_prefix _

theorem visible_append (h : 0 ∉ s) (t : List UInt8) : visible (s ++ t) = s ++ visible t := by
  apply List.takeWhile_append_of_pos
  intro x hx
  rw [decide_eq_true_eq]
  rintro rfl
  exact h hx

theorem visible_of_nul_free (h : 0 ∉ p) : visible p = p := by
  simpa [visible] using visible_append h []

theorem rtStrstr_iff (p w : List UInt8) : rtStrstr p w = true ↔ w <:+: visible p := by
  rw [rtStrstr, List.any_eq_true, List.infix_iff_prefix_suffix]
  constructor
  · rintro ⟨t, ht, hw⟩
    exact ⟨t, List.isPrefixOf_iff_prefix.mp hw, (List.mem_tails _ _).mp ht⟩
  · rintro ⟨t, hw, ht⟩
    exact ⟨t, (List.mem_tails _ _).mpr ht, List.isPrefixOf_iff_prefix.mpr hw⟩

/-- What the loop says about a piece. -/
def judge (expect p : List UInt8) : Option RtErr :=
  if rtStrstr p expect then some .ok
  else if rtStrstr p (ascii ['E', 'R', 'R', 'O', 'R']) ∨
      rtStrstr p (ascii ['F', 'A', 'I', 'L']) then some .error
  else none

theorem failed_visible (p : List UInt8) :
    (rtStrstr p (ascii ['E', 'R', 'R', 'O', 'R']) = true ∨
      rtStrstr p (ascii ['F', 'A', 'I', 'L']) = true) ↔ Failed (visible p) := by
  rw [rtStrstr_iff, rtStrstr_iff]
  simp [Failed, failures]

theorem judge_ok (h : expect <:+: visible p) : judge expect p = some .ok :=
  if_pos ((rtStrstr_iff p expect).mpr h)

theorem judge_error (h : ¬ expect <:+: visible p) (hf : Failed (visible p)) :
    judge expect p = some .error := by
  rw [judge, if_neg (mt (rtStrstr_iff p expect).mp h), if_pos ((failed_visible p).mpr hf)]

theorem judge_none (h : ¬ expect <:+: visible p) (hf : ¬ Failed (visible p)) :
    judge expect p = none := by
  rw [judge, if_neg (mt (rtStrstr_iff p expect).mp h), if_neg (mt (failed_visible p).mp hf)]

theorem failure_length (hw : w ∈ failures) : 0 ∉ w ∧ 4 ≤ w.length ∧ w.length ≤ 5 := by
  revert w
  decide

theorem not_failed_nil : ¬ Failed [] := by
  rintro ⟨w, hw, hpart⟩
  have hfour := (failure_length hw).2.1
  rw [List.infix_nil.mp hpart] at hfour
  exact absurd hfour (by decide)

/-- A single byte is no error. -/
theorem judge_singleton (x : UInt8) (h : ¬ expect <:+: [x]) : judge expect [x] = none := by
  apply judge_none
  · exact fun hv => h (hv.trans (visible_isPrefix _).isInfix)
  · rintro ⟨w, hw, hpart⟩
    have hlen := (hpart.trans (visible_isPrefix [x]).isInfix).length_le
    have hfour := (failure_length hw).2.1
    rw [List.length_singleton] at hlen
    omega

/-! ## All pieces -/

/-- The result when the pieces come in time. -/
def result (expect : List UInt8) (ps : List (List UInt8)) : RtErr :=
  (ps.findSome? (judge expect)).getD .timeout

/-- **The waiting loop judges one piece after the other.** -/
theorem waitReply_eq (expect : List UInt8) (h : ∀ t ∈ turns, t.elapsed ≤ timeout) :
    (waitReply expect timeout turns).1 = result expect (piecesRead turns) := by
  induction turns with
  | nil => rfl
  | cons turn turns ih =>
    have hrest := ih fun t ht => h t (List.mem_cons_of_mem _ ht)
    have hhead := h turn List.mem_cons_self
    cases turn with
    | silence elapsed =>
      have hlate : ¬ elapsed > timeout := Nat.not_lt.mpr hhead
      rw [waitReply, if_neg hlate, hrest]
      rfl
    | wake chunk elapsed =>
      have hlate : ¬ elapsed > timeout := Nat.not_lt.mpr hhead
      rw [waitReply]
      by_cases hempty : chunk = []
      · subst hempty
        rw [if_neg (by simp), if_neg (by simp), if_neg hlate]
        exact hrest
      · have hpos : chunk.length > 0 := List.length_pos_iff.mpr hempty
        have hread : piecesRead (.wake chunk elapsed :: turns) = chunk :: piecesRead turns := by
          simp [piecesRead, Turn.read, hempty]
        simp only [hpos, hlate, true_and, if_false]
        rw [hread, result, List.findSome?_cons, judge]
        split
        · rfl
        · split
          · rfl
          · exact hrest

/-- Any cut can be what is read. -/
theorem exists_delivers (timeout : Nat) (h : Cut 511 stream ps) :
    ∃ turns, Delivers timeout stream turns ∧ piecesRead turns = ps := by
  have hmap : (ps.map fun p => Turn.wake p 0).map Turn.read = ps := by
    rw [List.map_map]
    exact List.map_id ps
  have hread : piecesRead (ps.map fun p => .wake p 0) = ps := by
    rw [piecesRead, hmap, List.filter_eq_self]
    exact fun p hp => decide_eq_true (h.nonempty p hp)
  refine ⟨ps.map fun p => .wake p 0, ⟨by rwa [hread], ?_, ?_⟩, hread⟩
  · intro t ht
    obtain ⟨p, -, rfl⟩ := List.mem_map.mp ht
    exact Nat.zero_le _
  · rw [List.map_map, List.pairwise_map]
    exact List.pairwise_of_forall fun _ _ => Nat.le_refl _

/-- The result is the same for every cut. -/
theorem uniform_iff_cuts (cmd expect : CString) (timeout : Nat) (stream : List UInt8) :
    Uniform cmd expect timeout stream ↔
      ∃ r, (∀ ps, Cut 511 stream ps → result expect.chars ps = r) ∧
        (OkFirst expect.chars stream → r = .ok) ∧
        (ErrorFirst expect.chars stream → r = .error) := by
  refine exists_congr fun r => and_congr_left fun _ => ?_
  constructor
  · intro h ps hps
    obtain ⟨turns, hdelivers, hread⟩ := exists_delivers timeout hps
    rw [← hread, ← waitReply_eq _ hdelivers.in_time]
    exact h ⟨[], turns⟩ hdelivers
  · intro h replies hdelivers
    exact (waitReply_eq _ hdelivers.in_time).trans (h _ hdelivers.cut)

/-! ## Streams that are read alike however they are cut -/

theorem Failed.mono (h : Failed s) (hst : s <:+: t) : Failed t :=
  h.imp fun _ hw => ⟨hw.1, hw.2.trans hst⟩

/-- The character stands where no zero can hide it: none of the 510 bytes before it is one.  And no
error that can be seen without it has come. -/
def Unmissable (c : UInt8) (stream : List UInt8) : Prop :=
  ∃ pre post, stream = pre ++ c :: post ∧ 0 ∉ pre.drop (pre.length - 510) ∧
    ∀ w ∈ failures, c ∉ w → ¬ w <:+: pre

theorem Unmissable.append (h : Unmissable c s) (t : List UInt8) : Unmissable c (s ++ t) := by
  obtain ⟨pre, post, rfl, hzero, hw⟩ := h
  exact ⟨pre, post ++ t, by rw [List.append_assoc, List.cons_append], hzero, hw⟩

/-- Nothing to be found. -/
theorem result_absent (he : ¬ expect <:+: s) (hf : ¬ Failed s) (hps : Cut 511 s ps) :
    result expect ps = .timeout := by
  have hnone : ps.findSome? (judge expect) = none := by
    rw [List.findSome?_eq_none_iff]
    intro p hp
    have hpart : visible p <:+: s := (visible_isPrefix p).isInfix.trans (hps.infix_of_mem hp)
    exact judge_none (fun h => he (h.trans hpart)) fun h => hf (h.mono hpart)
  rw [result, hnone]
  rfl

theorem mem_iff_isInfix : [c] <:+: s ↔ c ∈ s := by
  constructor
  · exact fun h => h.subset List.mem_cons_self
  · intro h
    obtain ⟨a, b, rfl⟩ := List.append_of_mem h
    exact ⟨a, b, by simp⟩

theorem result_unmissable (hc : c ≠ 0) (h : Unmissable c s) (hps : Cut 511 s ps) :
    result [c] ps = .ok := by
  obtain ⟨pre, post, rfl, hzero, hw⟩ := h
  obtain ⟨before, p, after, a, b, rfl, rfl, rfl, ha⟩ := hps.exists_piece
  have hclear : 0 ∉ a := by
    intro hmem
    apply hzero
    rw [List.drop_append, List.mem_append]
    right
    rw [List.length_append, show before.flatten.length + a.length - 510 - before.flatten.length = 0
      by omega]
    exact hmem
  have hseen : judge [c] (a ++ c :: b) = some .ok := by
    apply judge_ok
    rw [visible_append hclear, mem_iff_isInfix, visible,
      List.takeWhile_cons_of_pos (by simpa using hc)]
    simp
  have hbefore : ∀ q ∈ before, judge [c] q = none ∨ judge [c] q = some .ok := by
    intro q hq
    by_cases hok : [c] <:+: visible q
    · exact .inr (judge_ok hok)
    · refine .inl (judge_none hok ?_)
      rintro ⟨w, hmem, hpart⟩
      have hcw : c ∉ w := fun h => hok ((mem_iff_isInfix.mpr h).trans hpart)
      apply hw w hmem hcw
      have hq' : q <:+: before.flatten := List.infix_of_mem_flatten hq
      exact hpart.trans ((visible_isPrefix q).isInfix.trans
        (hq'.trans (List.prefix_append _ _).isInfix))
  rw [result, findSome?_of_before hbefore hseen]
  rfl

theorem result_nil (hs : s ≠ []) (hps : Cut 511 s ps) : result [] ps = .ok := by
  cases ps with
  | nil => exact absurd hps.flatten.symm hs
  | cons p ps =>
    rw [result, List.findSome?_cons, judge_ok (List.nil_infix)]
    rfl

/-! ## Streams that are not -/

/-- The character in one piece with a zero before it. -/
theorem evading_of_zero (hzero : 0 ∈ s.drop (s.length - 510))
    (h : ∀ u v, s = u ++ v → ∃ ps, Cut 511 u ps ∧ ps.findSome? (judge [c]) ≠ some .ok) :
    ∃ ps, Cut 511 (s ++ [c]) ps ∧ ps.findSome? (judge [c]) ≠ some .ok := by
  obtain ⟨v, v', hdrop⟩ := List.append_of_mem hzero
  have hs : s = (s.take (s.length - 510) ++ v) ++ 0 :: v' := by
    rw [List.append_assoc, ← hdrop, List.take_append_drop]
  have hlen : (0 :: v' ++ [c]).length ≤ 511 := by
    have hle := congrArg List.length hdrop
    simp only [List.length_drop, List.length_append, List.length_cons] at hle
    simp only [List.length_append, List.length_cons, List.length_nil]
    omega
  have hblind : judge [c] (0 :: v' ++ [c]) = none := by
    have hvisible : visible (0 :: v' ++ [c]) = [] := List.takeWhile_cons_of_neg (by simp)
    apply judge_none
    · rw [hvisible, mem_iff_isInfix]
      exact List.not_mem_nil
    · rw [hvisible]
      exact not_failed_nil
  obtain ⟨ps, hps, hno⟩ := h _ _ hs
  refine ⟨ps ++ [0 :: v' ++ [c]], ?_, ?_⟩
  · have hsplit : s ++ [c] = (s.take (s.length - 510) ++ v) ++ (0 :: v' ++ [c]) := by
      rw [← List.append_assoc, ← hs]
    rw [hsplit]
    exact hps.append (.single (by simp) hlen)
  · rw [List.findSome?_append, List.findSome?_singleton, hblind, Option.or_none]
    exact hno

/-- An error as a piece before the character. -/
theorem evading_of_failure {a b : List UInt8} (hw : w ∈ failures) (hcw : c ∉ w)
    (h : ∃ ps, Cut 511 a ps ∧ ps.findSome? (judge [c]) ≠ some .ok) (t : List UInt8) :
    ∃ ps, Cut 511 (a ++ w ++ b ++ t) ps ∧ ps.findSome? (judge [c]) ≠ some .ok := by
  obtain ⟨hclear, hfour, hfive⟩ := failure_length hw
  obtain ⟨ps, hps, hno⟩ := h
  by_cases hnone : ps.findSome? (judge [c]) = none
  · have herror : judge [c] w = some .error := by
      apply judge_error
      · rw [visible_of_nul_free hclear, mem_iff_isInfix]
        exact hcw
      · rw [visible_of_nul_free hclear]
        exact ⟨w, hw, List.infix_rfl⟩
    have hne : w ≠ [] := List.ne_nil_of_length_pos (by omega)
    obtain ⟨qs, hqs, herr⟩ := hps.exists_verdict (by omega) hnone hne (by omega) herror (b ++ t)
    refine ⟨qs, by rwa [List.append_assoc _ b t], ?_⟩
    rw [herr]
    simp
  · obtain ⟨r, hr⟩ := Option.ne_none_iff_exists'.mp hnone
    refine ⟨ps ++ singles (w ++ b ++ t), ?_, ?_⟩
    · rw [List.append_assoc a w b, List.append_assoc a]
      exact hps.append (cut_singles (by omega) _)
    · rw [List.findSome?_append, hr, Option.some_or, ← hr]
      exact hno

/-- **A character that can be missed is missed in some cut.**  From the end of the stream: the
character goes into one piece with a zero before it, or an error before it is a piece. -/
theorem exists_evading (s : List UInt8) (h : ¬ Unmissable c s) :
    ∃ ps, Cut 511 s ps ∧ ps.findSome? (judge [c]) ≠ some .ok := by
  induction hn : s.length using Nat.strong_induction_on generalizing s with
  | _ n ih =>
    subst hn
    rcases List.eq_nil_or_concat s with rfl | ⟨s', x, rfl⟩
    · exact ⟨[], Cut.nil, by simp⟩
    have hshorter : ∀ u v, s' = u ++ v →
        ∃ ps, Cut 511 u ps ∧ ps.findSome? (judge [c]) ≠ some .ok := by
      rintro u v rfl
      refine ih u.length ?_ u (fun hu => h ?_) rfl
      · simp only [List.concat_eq_append, List.length_append, List.length_singleton]
        omega
      · rw [List.concat_eq_append, List.append_assoc]
        exact hu.append _
    rw [List.concat_eq_append] at h ⊢
    by_cases hx : x = c
    · subst hx
      have hmissed : 0 ∈ s'.drop (s'.length - 510) ∨ ∃ w ∈ failures, x ∉ w ∧ w <:+: s' := by
        by_contra hno
        rw [not_or] at hno
        exact h ⟨s', [], rfl, hno.1, fun w hw hxw hpart => hno.2 ⟨w, hw, hxw, hpart⟩⟩
      rcases hmissed with hzero | ⟨w, hw, hxw, a, b, hs'⟩
      · exact evading_of_zero hzero hshorter
      · rw [← hs']
        exact evading_of_failure hw hxw (hshorter a (w ++ b) (by rw [← hs', List.append_assoc])) _
    · obtain ⟨ps, hps, hno⟩ := hshorter s' [] (List.append_nil s').symm
      refine ⟨ps ++ [[x]], hps.append (.single (List.cons_ne_nil x []) (by simp)), ?_⟩
      have hsingle : judge [c] [x] = none := by
        apply judge_singleton
        rw [mem_iff_isInfix, List.mem_singleton]
        exact Ne.symm hx
      rw [List.findSome?_append, List.findSome?_singleton, hsingle, Option.or_none]
      exact hno

/-- Where no byte says anything, a uniform result is the timeout, and then no error may be there. -/
theorem not_failed_of_quiet (hquiet : ∀ x ∈ s, ¬ expect <:+: [x])
    (hsame : ∀ ps, Cut 511 s ps → result expect ps = r) : r = .timeout ∧ ¬ Failed s := by
  have hnone : ∀ t, (∀ x ∈ t, x ∈ s) → (singles t).findSome? (judge expect) = none := fun t ht =>
    findSome?_singles fun x hx => judge_singleton x (hquiet x (ht x hx))
  have hr : r = .timeout := by
    rw [← hsame _ (cut_singles (by omega) s), result, hnone s fun _ hx => hx]
    rfl
  refine ⟨hr, ?_⟩
  rintro ⟨w, hw, a, b, hs⟩
  obtain ⟨hclear, hfour, hfive⟩ := failure_length hw
  have hone : ∃ r', r' ≠ .timeout ∧ judge expect w = some r' := by
    by_cases he : expect <:+: visible w
    · exact ⟨.ok, by decide, judge_ok he⟩
    · refine ⟨.error, by decide, judge_error he ?_⟩
      rw [visible_of_nul_free hclear]
      exact ⟨w, hw, List.infix_rfl⟩
  obtain ⟨r', hr', hjudge⟩ := hone
  have hbefore := hnone a fun x hx => by
    rw [← hs]
    simp [hx]
  have hne : w ≠ [] := List.ne_nil_of_length_pos (by omega)
  have hcut : Cut 511 a (singles a) := cut_singles (by omega) a
  obtain ⟨qs, hqs, hverdict⟩ := hcut.exists_verdict (by omega) hbefore hne (by omega) hjudge b
  rw [hs] at hqs
  apply hr'
  rw [← hr, ← hsame qs hqs, result, hverdict]
  rfl

/-- A character of the stream is found byte by byte. -/
theorem result_singles (hc : c ≠ 0) (hmem : c ∈ s) : result [c] (singles s) = .ok := by
  obtain ⟨a, b, rfl⟩ := List.append_of_mem hmem
  have hself : judge [c] [c] = some .ok := by
    apply judge_ok
    rw [visible_of_nul_free (by simpa using hc.symm)]
  have hbefore : ∀ q ∈ singles a, judge [c] q = none ∨ judge [c] q = some .ok := by
    intro q hq
    obtain ⟨x, -, rfl⟩ := List.mem_map.mp hq
    by_cases hx : c = x
    · exact .inr (hx ▸ hself)
    · refine .inl (judge_singleton x ?_)
      rw [mem_iff_isInfix, List.mem_singleton]
      exact hx
  rw [result, singles_append_cons, findSome?_of_before hbefore hself]
  rfl

/-- What comes before the character has no error in it. -/
theorem not_errorFirst_of_unmissable (h : Unmissable c s) : ¬ ErrorFirst [c] s := by
  obtain ⟨pre, post, rfl, -, hno⟩ := h
  rintro ⟨p, hp, hc, w, hw, hpart⟩
  rw [mem_iff_isInfix] at hc
  have hupto : pre ++ [c] <+: pre ++ c :: post := ⟨post, by simp⟩
  rcases List.prefix_or_prefix_of_prefix hp hupto with hle | hle
  · rcases List.prefix_concat_iff.mp hle with rfl | hpre
    · exact hc (List.mem_append_right _ List.mem_cons_self)
    · exact hno w hw (fun hcw => hc (hpart.subset hcw)) (hpart.trans hpre.isInfix)
  · exact hc (hle.subset (List.mem_append_right _ List.mem_cons_self))

/-- **The result is the same for every cut, and the right one, exactly in three cases**: none of the
texts is in the stream; the expected text is a single character that cannot be missed; it is empty
and something comes. -/
theorem uniform_iff (cmd expect : CString) (timeout : Nat) (stream : List UInt8) :
    Uniform cmd expect timeout stream ↔
      (¬ expect.chars <:+: stream ∧ ¬ Failed stream) ∨
        (∃ c, expect.chars = [c] ∧ Unmissable c stream) ∨
        (expect.chars = [] ∧ stream ≠ []) := by
  obtain ⟨expect, hclear⟩ := expect
  rw [uniform_iff_cuts]
  constructor
  · rintro ⟨r, hsame, hok, -⟩
    by_cases hin : expect <:+: stream
    · right
      match expect with
      | [] =>
        refine .inr ⟨rfl, ?_⟩
        rintro rfl
        have hr := hok ⟨[], List.prefix_rfl, List.infix_rfl, not_failed_nil⟩
        have hnothing : result [] [] = .timeout := rfl
        exact absurd (hnothing.symm.trans ((hsame [] .nil).trans hr)) (by decide)
      | [c] =>
        refine .inl ⟨c, rfl, ?_⟩
        by_contra hno
        have hc : c ≠ 0 := fun h => hclear (h ▸ List.mem_cons_self)
        obtain ⟨ps, hps, hmissed⟩ := exists_evading stream hno
        have hr := (hsame _ (cut_singles (by omega) stream)).symm.trans
          (result_singles hc (mem_iff_isInfix.mp hin))
        have hps' := (hsame ps hps).trans hr
        unfold result at hps'
        cases hfound : ps.findSome? (judge [c]) with
        | none =>
          rw [hfound] at hps'
          cases hps'
        | some r' =>
          rw [hfound] at hps' hmissed
          exact hmissed (congrArg some hps')
      | c :: d :: e =>
        exfalso
        have hquiet : ∀ x ∈ stream, ¬ (c :: d :: e) <:+: [x] := by
          intro x _ h
          have hlen := h.length_le
          simp at hlen
        obtain ⟨hr, hnot⟩ := not_failed_of_quiet hquiet hsame
        exact absurd (hr.symm.trans (hok ⟨stream, List.prefix_rfl, hin, hnot⟩)) (by decide)
    · refine .inl ⟨hin, (not_failed_of_quiet (fun x hx h => hin ?_) hsame).2⟩
      exact h.trans (mem_iff_isInfix.mpr hx)
  · rintro (⟨hin, hnot⟩ | ⟨c, hc, hun⟩ | ⟨he, hne⟩)
    · refine ⟨.timeout, fun ps hps => result_absent hin hnot hps, ?_, ?_⟩
      · rintro ⟨p, hp, he, -⟩
        exact absurd (he.trans hp.isInfix) hin
      · rintro ⟨p, hp, -, hf⟩
        exact absurd (hf.mono hp.isInfix) hnot
    · dsimp only at hc
      subst hc
      have hne : c ≠ 0 := fun h => hclear (h ▸ List.mem_cons_self)
      exact ⟨.ok, fun ps hps => result_unmissable hne hun hps, fun _ => rfl,
        fun h => absurd h (not_errorFirst_of_unmissable hun)⟩
    · dsimp only at he
      subst he
      refine ⟨.ok, fun ps hps => result_nil hne hps, fun _ => rfl, ?_⟩
      rintro ⟨p, -, he, -⟩
      exact absurd List.nil_infix he

/-- `AT`, and the answer `OK` in one piece or in two. -/
theorem ok_in_two_pieces :
    ¬ Uniform ⟨ascii ['A', 'T'] ++ [13, 10], by decide⟩ ⟨ascii ['O', 'K'], by decide⟩ 2000
      (ascii ['O', 'K']) := by
  rintro ⟨r, hsame, -⟩
  have hone : Delivers 2000 (ascii ['O', 'K']) [.wake (ascii ['O', 'K']) 1] :=
    ⟨⟨by decide, by decide, by decide⟩, by decide, by decide⟩
  have htwo : Delivers 2000 (ascii ['O', 'K']) [.wake (ascii ['O']) 1, .wake (ascii ['K']) 2] :=
    ⟨⟨by decide, by decide, by decide⟩, by decide, by decide⟩
  exact absurd ((hsame ⟨[], _⟩ hone).trans (hsame ⟨[], _⟩ htwo).symm) (by decide)

end OSCompas.Wifi
