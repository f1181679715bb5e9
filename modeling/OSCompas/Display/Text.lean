import OSCompas.Display.Oled

/-!
# The shape of a text on the display

Without a font, `oled_show_char` fills a square; `oled_show_string` puts the squares half a square
apart, starts a new line at the right edge and a new screen at the bottom.

Principal results: `oledShowString_inside` (no text leaves the screen) and `oledShowString_bar` (a
text that fits on its line is a bar).
-/

set_option autoImplicit false

namespace OSCompas.Display

variable {p : Panel} {d : Oled} {x y size : UInt8} {px py : Nat}

/-! ## Places -/

/-- The place of a character, by whether it starts a new line and whether it starts a new screen. -/
theorem place_eq (x y size : UInt8) : ∃ x' y' : UInt8,
    (((x.toNat : Int) > oledWidth - size.toNat ∧ x' = 0 ∧ y' = y + size) ∨
      (¬ (x.toNat : Int) > oledWidth - size.toNat ∧ x' = x ∧ y' = y)) ∧
    (((y'.toNat : Int) > oledHeight - size.toNat ∧ place x y size = ⟨0, 0, true⟩) ∨
      (¬ (y'.toNat : Int) > oledHeight - size.toNat ∧ place x y size = ⟨x', y', false⟩)) := by
  by_cases hw : (x.toNat : Int) > oledWidth - size.toNat
  · refine ⟨0, y + size, .inl ⟨hw, rfl, rfl⟩, ?_⟩
    by_cases hf : ((y + size).toNat : Int) > oledHeight - size.toNat
    · exact .inl ⟨hf, by simp only [place, hw, hf, if_true, decide_true]⟩
    · exact .inr ⟨hf, by
        simp only [place, hw, hf, if_true, if_false, decide_true, decide_false, Bool.false_eq_true]⟩
  · refine ⟨x, y, .inr ⟨hw, rfl, rfl⟩, ?_⟩
    by_cases hf : (y.toNat : Int) > oledHeight - size.toNat
    · exact .inl ⟨hf, by
        simp only [place, hw, hf, if_true, if_false, decide_true, decide_false, Bool.false_eq_true]⟩
    · exact .inr ⟨hf, by simp only [place, hw, hf, if_false, decide_false, Bool.false_eq_true]⟩

theorem place_inside (x y : UInt8) {size : UInt8} (hsize : size.toNat ≤ 64) :
    (place x y size).x.toNat + size.toNat ≤ 128 ∧ (place x y size).y.toNat + size.toNat ≤ 64 := by
  have zero : (0 : UInt8).toNat = 0 := rfl
  obtain ⟨x', y', hx, ⟨hf, hp⟩ | ⟨hf, hp⟩⟩ := place_eq x y size
  · rw [hp]
    simp only [zero]
    omega
  · rw [hp]
    simp only [oledHeight, oledWidth] at hf hx
    obtain ⟨hw, rfl, rfl⟩ | ⟨hw, rfl, rfl⟩ := hx
    · simp only [zero]
      omega
    · simp only
      omega

/-- A character is drawn at its place, on a cleared screen if there was no room left. -/
def Oled.drawAt (size : UInt8) (d : Oled) (q : Place × Char) : Oled :=
  oledShowChar (if q.1.full then oledClear d else d) q.1.x q.1.y q.2 size

/-- The loop of `oled_show_string` draws each character at its place. -/
theorem showChars_eq (size : UInt8) (str : List Char) (d : Oled) (x y : UInt8) :
    showChars d x y size str =
      ((places size str.length x y).zip str).foldl (Oled.drawAt size) d := by
  induction str generalizing d x y with
  | nil => rfl
  | cons ch str ih =>
    rw [List.length_cons, places, List.zip_cons_cons, List.foldl_cons, ← ih]
    rfl

/-- A character whose square is on the screen lights all of it, and nothing else. -/
theorem lit_showChar (hx : x.toNat + size.toNat ≤ 128) (hy : y.toNat + size.toNat ≤ 64)
    (d : Oled) (ch : Char) (hpx : px < 128) (hpy : py < 64) :
    (oledShowChar d x y ch size).lit px py ↔ d.lit px py ∨
      (x.toNat ≤ px ∧ px < x.toNat + size.toNat) ∧ y.toNat ≤ py ∧ py < y.toNat + size.toNat := by
  unfold oledShowChar
  split
  · rename_i hout
    simp only [oledWidth, oledHeight] at hout
    rw [or_iff_left (by omega)]
  · rw [oledRefresh_lit, lit_drawRows hpx hpy, UInt8.add_zero, within_iff (by omega) (by omega),
      within_iff (by omega) (by omega)]

theorem places_inside {size : UInt8} (hsize : size.toNat ≤ 64) (n : Nat) (x y : UInt8) :
    ∀ q ∈ places size n x y, q.x.toNat + size.toNat ≤ 128 ∧ q.y.toNat + size.toNat ≤ 64 := by
  induction n generalizing x y with
  | zero => nofun
  | succ n ih =>
    intro q hq
    obtain rfl | hq := List.mem_cons.mp hq
    · exact place_inside x y hsize
    · exact ih _ _ q hq

/-- **No text leaves the screen**: wherever it starts, `oled_show_string` draws one character after
the other where its whole square is on the screen, if it has at most 64 pixels, and lights all of
the square. -/
theorem oledShowString_inside (d : Oled) (x y : UInt8) {size : UInt8} (hsize : size.toNat ≤ 64)
    (str : List Char) :
    oledShowString d x y str size =
        oledRefresh (((places size str.length x y).zip str).foldl (Oled.drawAt size) d) ∧
      ∀ q ∈ places size str.length x y,
        (q.x.toNat + size.toNat ≤ 128 ∧ q.y.toNat + size.toNat ≤ 64) ∧
        ∀ (e : Oled) (ch : Char), ∀ px < 128, ∀ py < 64,
          ((oledShowChar e q.x q.y ch size).lit px py ↔ e.lit px py ∨
            (q.x.toNat ≤ px ∧ px < q.x.toNat + size.toNat) ∧
              q.y.toNat ≤ py ∧ py < q.y.toNat + size.toNat) := by
  constructor
  · rw [oledShowString, showChars_eq]
  · intro q hq
    obtain ⟨hx, hy⟩ := places_inside hsize str.length x y q hq
    exact ⟨⟨hx, hy⟩, fun e ch px hpx py hpy => lit_showChar hx hy e ch hpx hpy⟩

/-- A text that starts near the right edge: its second character is on a new line. -/
theorem oledShowString_inside_wifi : let d := (oledInit true rtEok ⟨Vector.replicate 1024 0, []⟩).2
    oledShowString d 112 8 "WiFi".toList 12 = oledRefresh
        (((places 12 "WiFi".toList.length 112 8).zip "WiFi".toList).foldl (Oled.drawAt 12) d) ∧
      ∀ q ∈ places 12 "WiFi".toList.length 112 8,
        (q.x.toNat + (12 : UInt8).toNat ≤ 128 ∧ q.y.toNat + (12 : UInt8).toNat ≤ 64) ∧
        ∀ (e : Oled) (ch : Char), ∀ px < 128, ∀ py < 64,
          ((oledShowChar e q.x q.y ch 12).lit px py ↔ e.lit px py ∨
            (q.x.toNat ≤ px ∧ px < q.x.toNat + (12 : UInt8).toNat) ∧
              q.y.toNat ≤ py ∧ py < q.y.toNat + (12 : UInt8).toNat) :=
  oledShowString_inside _ 112 8 (by decide) "WiFi".toList

/-! ## A line -/

/-- The square of a character that fits is a full one. -/
theorem mem_square (hx : x.toNat + size.toNat ≤ 128) (hy : y.toNat + size.toNat ≤ 64) :
    (px, py) ∈ square x y size ↔
      (x.toNat ≤ px ∧ px < x.toNat + size.toNat) ∧ y.toNat ≤ py ∧ py < y.toNat + size.toNat := by
  simp only [square, screen, Set.mem_ofPred_eq]
  constructor
  · rintro ⟨⟨hpx, hpy⟩, hin⟩
    rw [within_iff (by omega) (by omega), within_iff (by omega) (by omega)] at hin
    exact hin
  · intro hin
    rw [within_iff (by omega) (by omega), within_iff (by omega) (by omega)]
    exact ⟨by omega, hin⟩

theorem place_fits (hx : x.toNat + size.toNat ≤ 128) (hy : y.toNat + size.toNat ≤ 64) :
    place x y size = ⟨x, y, false⟩ := by
  obtain ⟨x', y', ⟨hw, -⟩ | ⟨-, rfl, rfl⟩, hp⟩ := place_eq x y size
  · simp only [oledWidth] at hw
    omega
  · obtain ⟨hf, -⟩ | ⟨-, hp⟩ := hp
    · simp only [oledHeight] at hf
      omega
    · exact hp

theorem putChar_fits (hx : x.toNat + size.toNat ≤ 128) (hy : y.toNat + size.toNat ≤ 64)
    (c : Canvas) :
    (px, py) ∈ (c.putChar size (place x y size)).drawn ↔
      (px, py) ∈ c.drawn ∨
        (x.toNat ≤ px ∧ px < x.toNat + size.toNat) ∧ y.toNat ≤ py ∧ py < y.toNat + size.toNat := by
  rw [place_fits hx hy, ← mem_square hx hy, Canvas.putChar, Canvas.showChar]
  split
  · rfl
  · rename_i hout
    simp only [screen, Set.mem_ofPred_eq] at hout
    rw [mem_square hx hy, or_iff_left (by omega)]
    rfl

/-- The characters of a text on one line overlap to a bar. -/
theorem foldl_putChar (hy : y.toNat + size.toNat ≤ 64) (n : Nat) (c : Canvas) (x : UInt8)
    (hx : x.toNat + n * (size.toNat / 2) + size.toNat ≤ 128) :
    (px, py) ∈ ((places size (n + 1) x y).foldl (Canvas.putChar size) c).drawn ↔
      (px, py) ∈ c.drawn ∨
        (x.toNat ≤ px ∧ px < x.toNat + n * (size.toNat / 2) + size.toNat) ∧
          y.toNat ≤ py ∧ py < y.toNat + size.toNat := by
  induction n generalizing c x with
  | zero =>
    rw [places, places, List.foldl_cons, List.foldl_nil, putChar_fits (by omega) hy, Nat.zero_mul,
      Nat.add_zero]
  | succ n ih =>
    rw [Nat.add_mul, Nat.one_mul] at hx ⊢
    have hstep : (x + size / 2).toNat = x.toNat + size.toNat / 2 := by
      have hhalf : (size / 2).toNat = size.toNat / 2 := UInt8.toNat_div size 2
      rw [UInt8.toNat_add, hhalf, Nat.mod_eq_of_lt (by omega)]
    have hplace : place x y size = ⟨x, y, false⟩ := place_fits (by omega) hy
    rw [places, List.foldl_cons, hplace, ih _ _ (by simp only [hstep]; omega), ← hplace,
      putChar_fits (by omega) hy]
    simp only [hplace, hstep]
    generalize n * (size.toNat / 2) = w
    have hhalf : size.toNat / 2 ≤ size.toNat := Nat.div_le_self _ _
    constructor
    · rintro ((h | h) | h)
      · exact .inl h
      · exact .inr ⟨by omega, h.2⟩
      · exact .inr ⟨by omega, h.2⟩
    · rintro (h | h)
      · exact .inl (.inl h)
      · by_cases hlt : px < x.toNat + size.toNat
        · exact .inl (.inr ⟨⟨h.1.1, hlt⟩, h.2⟩)
        · exact .inr ⟨by omega, h.2⟩

/-- **A text that fits on its line is a bar**: the panel then shows the buffer and a full rectangle,
as high as a character and as long as the text, whatever its characters are. -/
theorem oledShowString_bar (h : (d.panel p).Ready) {str : List Char} (hstr : str ≠ [])
    (hx : x.toNat + (str.length - 1) * (size.toNat / 2) + size.toNat ≤ 128)
    (hy : y.toNat + size.toNat ≤ 64) (hpx : px < 128) (hpy : py < 64) :
    ((oledShowString d x y str size).panel p).lit px py ↔
      d.lit px py ∨
        (x.toNat ≤ px ∧ px < x.toNat + (str.length - 1) * (size.toNat / 2) + size.toNat) ∧
          y.toNat ≤ py ∧ py < y.toNat + size.toNat := by
  let c : Canvas := ⟨{q | d.lit q.1 q.2}, {q | (d.panel p).lit q.1 q.2}, (d.panel p).on⟩
  have hc : Shows p d c := ⟨h, rfl, fun _ _ _ _ => Iff.rfl, fun _ _ _ _ => Iff.rfl⟩
  obtain ⟨n, hn⟩ : ∃ n, str.length = n + 1 := Nat.exists_eq_succ_of_ne_zero (by simpa using hstr)
  have hshown := (hc.showChars size str x y).refresh.shown px hpx py hpy
  rw [hn] at hshown hx
  rw [hn]
  exact hshown.trans (foldl_putChar hy n c x hx)

/-- The title of `main.c`. -/
theorem oledShowString_bar_title :
    let p : Panel := ⟨⟨fun _ _ => 0xFF, 0, 7, 0, 127, 0, 0⟩, 2, false, []⟩
    let d := (oledInit true rtEok ⟨Vector.replicate 1024 0, []⟩).2
    ((oledShowString d 0 0 "IoT Sensor".toList 16).panel p).lit 87 15 ↔
      d.lit 87 15 ∨ ((0 : UInt8).toNat ≤ 87 ∧ 87 < (0 : UInt8).toNat +
        ("IoT Sensor".toList.length - 1) * ((16 : UInt8).toNat / 2) + (16 : UInt8).toNat) ∧
          (0 : UInt8).toNat ≤ 15 ∧ 15 < (0 : UInt8).toNat + (16 : UInt8).toNat :=
  oledShowString_bar (shows_init rfl _).ready (by decide) (by decide) (by decide) (by decide)
    (by decide)

end OSCompas.Display
