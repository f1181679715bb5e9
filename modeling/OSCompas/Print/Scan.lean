import OSCompas.Print.Bounds

/-!
# Where `vsnprintf` reads (`lab3-1-sparrowos-memory-module/kernel/print.c`)

After a `%` the loop moves over the next character whatever it is, and at the end of a format that
is its zero.

* `Scan`, `Scan.round` — the position in the format, the arguments and the buffer, and a round of
  the loop;
* `Scan.reads`, `Scan.after` — what a round reads, and the state after some rounds;
* `StaysInFormat` — the property.

Principal results: `scans_iff`, `vsnprintfLoop_scan` and `stays_in_format_iff`.
-/

set_option autoImplicit false

namespace OSCompas.Print.Bounds

open Chunks

/-! ## The loop with its position -/

/-- `fmt`, the arguments and the buffer between two rounds. -/
structure Scan where
  pos : Nat
  args : VaList
  b : Buffer Char

namespace Scan

/-- A round of the loop; nothing when the loop ends. -/
def round (bufEnd : Nat) (mem : Nat → Char) (s : Scan) : Option Scan :=
  if mem s.pos = '\x00' ∨ bufEnd ≤ s.b.ptr then none
  else if mem s.pos ≠ '%' then some ⟨s.pos + 1, s.args, s.b.put (mem s.pos)⟩
  else
    let pos := s.pos + 1
    if mem pos = 'l' then
      if mem (pos + 1) = 'l' ∧ mem (pos + 2) = 'x' then
        let pos := pos + 2
        some ⟨pos + 1, s.args.next, s.b.copy bufEnd (hexLoop 19 s.args.first.toNat [])⟩
      else some ⟨pos + 1, s.args, s.b⟩
    else
      let (args, b) := convert bufEnd (mem pos) s.args s.b
      some ⟨pos + 1, args, b⟩

/-- The places in the format that a round reads. -/
def reads (bufEnd : Nat) (mem : Nat → Char) (s : Scan) : List Nat :=
  if mem s.pos = '\x00' ∨ bufEnd ≤ s.b.ptr ∨ mem s.pos ≠ '%' then [s.pos]
  else if mem (s.pos + 1) ≠ 'l' then [s.pos, s.pos + 1]
  else if mem (s.pos + 2) ≠ 'l' then [s.pos, s.pos + 1, s.pos + 2]
  else [s.pos, s.pos + 1, s.pos + 2, s.pos + 3]

/-- The state after `n` rounds, if there are so many. -/
def after (bufEnd : Nat) (mem : Nat → Char) : Nat → Scan → Option Scan
  | 0, s => some s
  | n + 1, s => (s.round bufEnd mem).bind (after bufEnd mem n)

end Scan

/-- The memory from the format on: its characters, its zero, and what lies behind. -/
def memoryAt (fmt : CString) (behind : Nat → Char) (i : Nat) : Char :=
  if i < fmt.chars.length then fmt.chars.getD i '\x00'
  else if i = fmt.chars.length then '\x00'
  else behind (i - fmt.chars.length - 1)

/-! ## The property -/

/-- From a state on the position and all reads stay up to `last`, and the loop ends. -/
structure Scans (bufEnd : Nat) (mem : Nat → Char) (last : Nat) (s : Scan) : Prop where
  ends : ∃ n, s.after bufEnd mem n = none
  stays : ∀ n t, s.after bufEnd mem n = some t → t.pos ≤ last ∧ ∀ i ∈ t.reads bufEnd mem, i ≤ last

/-- **The scan stays in the format**, its zero included, and ends. -/
def StaysInFormat (size : Nat) (fmt : CString) (behind : Nat → Char) (args : VaList) : Prop :=
  size = 0 ∨ Scans (size - 1) (memoryAt fmt behind) fmt.chars.length ⟨0, args, .empty⟩

/-- The format has no `%` with nothing behind it, or the text before that `%` fills the buffer. -/
def Finished (size : Nat) (fmt : CString) (args : VaList) : Prop :=
  lone fmt.chars = false ∨ size - 1 ≤ total (chunks fmt.chars args)

variable {bufEnd pos last : Nat} {mem : Nat → Char} {c : Char} {rest : List Char} {args : VaList}
  {b b' : Buffer Char} {s s' : Scan} {k : Chunk Char}

/-! ## One round -/

/-- The loop ends here. -/
theorem scans_of_end (hround : s.round bufEnd mem = none) (hpos : s.pos ≤ last)
    (hreads : s.reads bufEnd mem = [s.pos]) : Scans bufEnd mem last s := by
  have hafter : ∀ n, s.after bufEnd mem (n + 1) = none := by
    intro n
    rw [Scan.after, hround, Option.bind_none]
  refine ⟨⟨1, hafter 0⟩, fun n t ht => ?_⟩
  cases n with
  | zero =>
    obtain rfl := Option.some.inj ht
    rw [hreads]
    exact ⟨hpos, fun i hi => (List.mem_singleton.mp hi).le.trans hpos⟩
  | succ n =>
    rw [hafter] at ht
    cases ht

/-- The loop goes on. -/
theorem scans_of_round (hround : s.round bufEnd mem = some s') : Scans bufEnd mem last s ↔
    (s.pos ≤ last ∧ ∀ i ∈ s.reads bufEnd mem, i ≤ last) ∧ Scans bufEnd mem last s' := by
  have hafter : ∀ n, s.after bufEnd mem (n + 1) = s'.after bufEnd mem n := by
    intro n
    rw [Scan.after, hround, Option.bind_some]
  constructor
  · rintro ⟨⟨n, hn⟩, hstays⟩
    refine ⟨hstays 0 s rfl, ⟨?_, fun m t ht => hstays (m + 1) t ((hafter m).trans ht)⟩⟩
    cases n with
    | zero => cases hn
    | succ n => exact ⟨n, (hafter n).symm.trans hn⟩
  · rintro ⟨hs, ⟨n, hn⟩, hstays⟩
    refine ⟨⟨n + 1, (hafter n).trans hn⟩, fun m t ht => ?_⟩
    cases m with
    | zero =>
      obtain rfl := Option.some.inj ht
      exact hs
    | succ m => exact hstays m t ((hafter m).symm.trans ht)

/-- The characters lie in the memory from `pos` on. -/
def Lies (mem : Nat → Char) : Nat → List Char → Prop
  | _, [] => True
  | pos, c :: l => mem pos = c ∧ Lies mem (pos + 1) l

/-- A text and its zero lie there. -/
def Text (mem : Nat → Char) (pos : Nat) (rest : List Char) : Prop :=
  Lies mem pos (rest ++ ['\x00'])

/-- A text begins with what is there, unless that is its zero. -/
theorem Text.head (h : Text mem pos rest) (hmem : mem pos = c) (hc : c ≠ '\x00') :
    ∃ t, rest = c :: t ∧ Text mem (pos + 1) t := by
  cases rest with
  | nil => exact absurd (hmem.symm.trans h.1) hc
  | cons a t =>
    obtain ⟨ha, ht⟩ := h
    exact ⟨t, by rw [← ha, hmem], ht⟩

/-- A chunk counts in whole, since a chunk that is cut fills the buffer. -/
theorem store_total (n : Nat) : bufEnd ≤ (k.store bufEnd b).ptr + n ↔
    bufEnd ≤ b.ptr + (k.length + n) := by
  rw [store_ptr, Chunk.length]
  omega

theorem scans_full (hfull : bufEnd ≤ b.ptr) (hpos : pos ≤ last) :
    Scans bufEnd mem last ⟨pos, args, b⟩ := by
  refine scans_of_end ?_ hpos ?_
  · exact if_pos (.inr hfull)
  · exact if_pos (.inr (.inl hfull))

/-- A round that stores a chunk and goes on with the rest of the text. -/
theorem scans_turn {fmt fmt' : List Char} {pos' : Nat} {args' : VaList}
    (hround : (Scan.mk pos args b).round bufEnd mem = some ⟨pos', args', k.store bufEnd b⟩)
    (hreads : ∀ i ∈ (Scan.mk pos args b).reads bufEnd mem, i ≤ last) (hpos : pos' ≤ last)
    (hbefore : pos ≤ pos') (hchunks : chunks fmt args = k :: chunks fmt' args')
    (ih : ¬ bufEnd ≤ (k.store bufEnd b).ptr →
      (Scans bufEnd mem last ⟨pos', args', k.store bufEnd b⟩ ↔ lone fmt' = false ∨
        bufEnd ≤ (k.store bufEnd b).ptr + total (chunks fmt' args'))) :
    Scans bufEnd mem last ⟨pos, args, b⟩ ↔
      lone fmt' = false ∨ bufEnd ≤ b.ptr + total (chunks fmt args) := by
  rw [scans_of_round hround, hchunks, total_cons, ← store_total]
  refine (and_iff_right ⟨hbefore.trans hpos, hreads⟩).trans ?_
  by_cases hfull : bufEnd ≤ (k.store bufEnd b).ptr
  · exact iff_of_true (scans_full hfull hpos) (.inr (by omega))
  · exact ih hfull

/-! ## The scan -/

/-- What is read in a round with room, where there is a `%`. -/
theorem reads_percent (args : VaList) (hmem : mem pos = '%') (hroom : ¬ bufEnd ≤ b.ptr) :
    (Scan.mk pos args b).reads bufEnd mem =
      if mem (pos + 1) ≠ 'l' then [pos, pos + 1]
      else if mem (pos + 2) ≠ 'l' then [pos, pos + 1, pos + 2]
      else [pos, pos + 1, pos + 2, pos + 3] := by
  refine if_neg ?_
  rintro (h | h | h)
  · rw [hmem] at h
    cases h
  · exact hroom h
  · exact h hmem

/-- A round with room, where there is a `%`. -/
theorem round_percent (args : VaList) (hmem : mem pos = '%') (hroom : ¬ bufEnd ≤ b.ptr) :
    (Scan.mk pos args b).round bufEnd mem =
      if mem (pos + 1) = 'l' then
        if mem (pos + 2) = 'l' ∧ mem (pos + 3) = 'x' then
          some ⟨pos + 4, args.next, (Chunk.mk [] (hexLoop 19 args.first.toNat [])).store bufEnd b⟩
        else some ⟨pos + 2, args, b⟩
      else some ⟨pos + 2, after (mem (pos + 1)) args,
        (chunk (mem (pos + 1)) args).store bufEnd b⟩ := by
  unfold Scan.round
  dsimp only
  rw [if_neg (not_or.mpr ⟨by rw [hmem]; simp, hroom⟩), if_neg (not_not.mpr hmem), convert_eq]
  rfl

/-- **The scan stays in a text** just if it does not come to a `%` with nothing behind it. -/
theorem scans_iff (h0 : '\x00' ∉ rest) (htext : Text mem pos rest) (hroom : ¬ bufEnd ≤ b.ptr) :
    Scans bufEnd mem (pos + rest.length) ⟨pos, args, b⟩ ↔
      lone rest = false ∨ bufEnd ≤ b.ptr + total (chunks rest args) := by
  fun_induction lone rest generalizing pos args b with
  | case1 =>
    have hzero : mem pos = '\x00' := htext.1
    refine iff_of_true (scans_of_end ?_ (Nat.le_add_right _ _) ?_) (.inl rfl)
    · exact if_pos (.inl hzero)
    · exact if_pos (.inl hzero)
  | case2 c rest hc ih =>
    obtain ⟨hc0, h0⟩ := not_or.mp (mt List.mem_cons.mpr h0)
    obtain ⟨hmem, htext⟩ := htext
    have hround : (Scan.mk pos args b).round bufEnd mem =
        some ⟨pos + 1, args, (Chunk.mk [c] []).store bufEnd b⟩ := by
      unfold Scan.round
      dsimp only
      rw [hmem, if_neg (not_or.mpr ⟨Ne.symm hc0, hroom⟩), if_pos hc]
      rfl
    have hreads : (Scan.mk pos args b).reads bufEnd mem = [pos] :=
      if_pos (.inr (.inr (by rw [hmem]; exact hc)))
    refine scans_turn hround ?_ ?_ ?_ (chunks_char rest args (Ne.symm hc0) hc).1 fun hroom' => ?_
    · rw [hreads]
      simp
    · simp
    · simp
    · rw [List.length_cons, Nat.add_comm rest.length 1, ← Nat.add_assoc]
      exact ih h0 htext hroom'
  | case3 c hc =>
    obtain rfl : c = '%' := not_not.mp hc
    obtain ⟨hmem, hzero, -⟩ := htext
    have hround := round_percent args hmem hroom
    rw [if_neg (by rw [hzero]; simp)] at hround
    refine iff_of_false (fun h => ?_) ?_
    · -- the position is behind the zero now
      have hpos : pos + 2 ≤ pos + 1 := (((scans_of_round hround).mp h).2.stays 0 _ rfl).1
      omega
    · rw [(chunks_percent args).1]
      simpa [Chunk.length] using hroom
  | case4 c hc rest ih =>
    obtain rfl : c = '%' := not_not.mp hc
    obtain ⟨hmem, hl, hl', hx, htext⟩ := htext
    have hround := round_percent args hmem hroom
    rw [if_pos hl, if_pos ⟨hl', hx⟩] at hround
    have hreads := reads_percent args hmem hroom
    rw [if_neg (not_not.mpr hl), if_neg (not_not.mpr hl')] at hreads
    have hlen : pos + ('%' :: 'l' :: 'l' :: 'x' :: rest).length = pos + 4 + rest.length := by
      simp only [List.length_cons]
      omega
    rw [hlen]
    refine scans_turn hround ?_ (by omega) (by omega) (chunks_llx rest args).1 fun hroom' =>
      ih (fun hmem => h0 (by simp [hmem])) htext hroom'
    rw [hreads]
    intro i hi
    simp only [List.mem_cons, List.not_mem_nil, or_false] at hi
    omega
  | case5 c hc rest hllx ih =>
    obtain rfl : c = '%' := not_not.mp hc
    obtain ⟨hmem, hl, htext⟩ := htext
    change Text mem (pos + 2) rest at htext
    have hnot : ¬ (mem (pos + 2) = 'l' ∧ mem (pos + 3) = 'x') := by
      rintro ⟨hl', hx⟩
      obtain ⟨t, rfl, ht⟩ := htext.head hl' (by simp)
      obtain ⟨u, rfl, -⟩ := ht.head hx (by simp)
      exact hllx u rfl
    have hround := round_percent args hmem hroom
    rw [if_pos hl, if_neg hnot] at hround
    have hreads := reads_percent args hmem hroom
    rw [if_neg (not_not.mpr hl)] at hreads
    have hlen : pos + ('%' :: 'l' :: rest).length = pos + 2 + rest.length := by
      simp only [List.length_cons]
      omega
    rw [hlen]
    refine scans_turn (k := ⟨[], []⟩) hround ?_ (by omega) (by omega) (chunks_l args hllx).1
      fun hroom' => ih (fun hmem => h0 (by simp [hmem])) htext hroom'
    rw [hreads]
    intro i hi
    -- it looks one place further only if the next one is not the zero
    by_cases hl' : mem (pos + 2) = 'l'
    · obtain ⟨t, rfl, -⟩ := htext.head hl' (by simp)
      rw [if_neg (not_not.mpr hl')] at hi
      simp only [List.mem_cons, List.not_mem_nil, or_false, List.length_cons] at hi ⊢
      omega
    · rw [if_pos hl'] at hi
      simp only [List.mem_cons, List.not_mem_nil, or_false] at hi
      omega
  | case6 c hc c' rest hllx hl ih =>
    obtain rfl : c = '%' := not_not.mp hc
    obtain ⟨hmem, hmem', htext⟩ := htext
    have hround := round_percent args hmem hroom
    rw [if_neg (by rw [hmem']; exact hl), hmem'] at hround
    have hreads := reads_percent args hmem hroom
    rw [if_pos (by rw [hmem']; exact hl)] at hreads
    have hlen : pos + ('%' :: c' :: rest).length = pos + 2 + rest.length := by
      simp only [List.length_cons]
      omega
    rw [hlen]
    refine scans_turn hround ?_ (by omega) (by omega) (chunks_convert rest args hl).1 fun hroom' =>
      ih (fun hmem => h0 (by simp [hmem])) htext hroom'
    rw [hreads]
    intro i hi
    simp only [List.mem_cons, List.not_mem_nil, or_false] at hi
    omega

/-- The scan comes to its end with the buffer `b'`. -/
def ComesTo (bufEnd : Nat) (mem : Nat → Char) (s : Scan) (b' : Buffer Char) : Prop :=
  ∃ n t, s.after bufEnd mem n = some t ∧ t.round bufEnd mem = none ∧ t.b = b'

theorem ComesTo.round (hround : s.round bufEnd mem = some s') (h : ComesTo bufEnd mem s' b') :
    ComesTo bufEnd mem s b' := by
  obtain ⟨n, t, ht, hend⟩ := h
  refine ⟨n + 1, t, ?_, hend⟩
  rw [Scan.after, hround, Option.bind_some]
  exact ht

/-- **The loop with its position is the loop over the memory.** -/
theorem vsnprintfLoop_scan {l : List Char} (h : vsnprintfLoop bufEnd l args b = some b')
    (hmem : Lies mem pos l) : ComesTo bufEnd mem ⟨pos, args, b⟩ b' := by
  fun_induction vsnprintfLoop bufEnd l args b generalizing pos with
  | case1 => cases h
  | case2 c l args b hstop =>
    refine ⟨0, _, rfl, ?_, Option.some.inj h⟩
    refine if_pos ?_
    rw [hmem.1]
    exact hstop
  | case3 c l args b hgo hc ih =>
    refine .round ?_ (ih h hmem.2)
    unfold Scan.round
    dsimp only
    rw [hmem.1, if_neg hgo, if_pos hc]
  | case4 c args b hgo hc => cases h
  | case5 c args b hgo hc l ih =>
    obtain rfl : c = '%' := not_not.mp hc
    obtain ⟨hpercent, hl, hl', hx, hmem⟩ := hmem
    have hround := round_percent args hpercent (not_or.mp hgo).2
    rw [if_pos hl, if_pos ⟨hl', hx⟩] at hround
    exact .round hround (ih h hmem)
  | case6 c args b hgo hc l hllx ih =>
    obtain rfl : c = '%' := not_not.mp hc
    obtain ⟨hpercent, hl, hmem⟩ := hmem
    have hround := round_percent args hpercent (not_or.mp hgo).2
    have hnot : ¬ (mem (pos + 2) = 'l' ∧ mem (pos + 3) = 'x') := by
      rintro ⟨hl', hx⟩
      rcases l with _ | ⟨a, _ | ⟨a', l⟩⟩
      · cases h
      · obtain rfl : a = 'l' := hmem.1.symm.trans hl'
        rw [vsnprintfLoop, if_neg (not_or.mpr ⟨by simp, (not_or.mp hgo).2⟩), if_pos (by simp)] at h
        cases h
      · obtain ⟨ha, ha', -⟩ := hmem
        exact hllx l (by rw [← ha, ← ha', hl', hx])
    rw [if_pos hl, if_neg hnot] at hround
    exact .round hround (ih h hmem)
  | case7 c args b hgo hc c' l hllx hl args' b'' hconv ih =>
    obtain rfl : c = '%' := not_not.mp hc
    obtain ⟨hpercent, hmem', hmem⟩ := hmem
    have hround := round_percent args hpercent (not_or.mp hgo).2
    rw [if_neg (by rw [hmem']; exact hl), hmem'] at hround
    rw [convert_eq] at hconv
    obtain ⟨rfl, rfl⟩ := Prod.mk.inj hconv
    exact .round hround (ih h hmem)

/-- A format and its zero lie where the scan begins. -/
theorem memoryAt_text (fmt : CString) (behind : Nat → Char) :
    Text (memoryAt fmt behind) 0 fmt.chars := by
  have hall : ∀ (mem : Nat → Char) (cs : List Char) (pos : Nat),
      (∀ i < cs.length, mem (pos + i) = cs.getD i '\x00') → mem (pos + cs.length) = '\x00' →
      Text mem pos cs := by
    intro mem cs
    induction cs with
    | nil => exact fun pos _ hzero => ⟨hzero, trivial⟩
    | cons c cs ih =>
      intro pos hmem hzero
      refine ⟨hmem 0 (by simp), ih (pos + 1) (fun i hi => ?_) ?_⟩
      · have hnext := hmem (i + 1) (by simpa using hi)
        rw [Nat.add_assoc, Nat.add_comm 1 i]
        exact hnext
      · rw [Nat.add_assoc, Nat.add_comm 1 cs.length]
        exact hzero
  apply hall
  · intro i hi
    rw [Nat.zero_add, memoryAt, if_pos hi]
  · rw [Nat.zero_add, memoryAt, if_neg (Nat.lt_irrefl _), if_pos rfl]

/-- **`vsnprintf` never reads past its format** just if the format does not end in a lone `%`, or
the buffer is full before it. -/
theorem stays_in_format_iff (size : Nat) (fmt : CString) (behind : Nat → Char) (args : VaList) :
    StaysInFormat size fmt behind args ↔ Finished size fmt args := by
  unfold StaysInFormat Finished
  by_cases hsize : size - 1 = 0
  · rw [hsize]
    refine iff_of_true (.inr ?_) (.inr (Nat.zero_le _))
    exact scans_full (Nat.zero_le _) (Nat.zero_le _)
  · rw [or_iff_right (show size ≠ 0 by omega)]
    have hroom : ¬ size - 1 ≤ (Buffer.empty : Buffer Char).ptr := by
      show ¬ size - 1 ≤ 0
      omega
    have hscan : Scans (size - 1) _ _ ⟨0, args, .empty⟩ ↔ _ :=
      scans_iff fmt.nul_free (memoryAt_text fmt behind) hroom
    rw [Nat.zero_add] at hscan
    rw [hscan]
    show _ ∨ size - 1 ≤ 0 + _ ↔ _
    rw [Nat.zero_add]

/-- `"100%"`. -/
def hundredPercent : CString := ⟨['1', '0', '0', '%'], by simp⟩

/-- With 64 bytes of room the scan goes on behind the zero. -/
theorem reads_behind : ¬ ∀ (size : Nat) (fmt : CString) (behind : Nat → Char) (args : VaList),
    StaysInFormat size fmt behind args := by
  intro hall
  rcases hall 64 hundredPercent (fun _ => '\x00') .nulls with h | h
  · cases h
  · have hafter : ((Scan.mk 0 .nulls .empty).after 63
        (memoryAt hundredPercent fun _ => '\x00') 4).map Scan.pos = some 5 := by decide
    obtain ⟨t, ht, hpos⟩ := Option.map_eq_some_iff.mp hafter
    have hle : t.pos ≤ 4 := (h.stays 4 t ht).1
    omega

end OSCompas.Print.Bounds
