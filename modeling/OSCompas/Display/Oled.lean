import OSCompas.Lib.Raster
import Mathlib.Data.Set.Basic
import Mathlib.Data.Nat.Bitwise

/-!
# The OLED display

`oled_display.c`: the driver draws into a frame buffer of its own and sends it, byte by byte in
packets of a control byte and a payload, to an SSD1306 panel.

* `Oled` and the functions of the source — the driver, with the packets it has sent;
* `Panel`, `Panel.receive` — the panel: its command decoder, its memory and its cursor;
* `Canvas` — what the two are for: a picture that is drawn and a picture that is shown.

Principal results: `Shows.call` (every call keeps driver and panel in step with the two pictures)
and `panel_eq` (after `oled_init` and any calls the panel shows exactly the picture that was drawn
up to the last refresh, whatever it held before).
-/

set_option autoImplicit false

namespace OSCompas.Display

open Raster

/-! ## The driver -/

/-- The pixels in a row and in a column. -/
def oledWidth : Nat := 128
def oledHeight : Nat := 64

/-- `oled_buffer`: a byte is eight pixels of a column, the topmost in bit 0. -/
abbrev Buffer : Type := Vector UInt8 1024

/-- The driver: the buffer, and the packets `rt_device_write` was given. -/
structure Oled where
  buffer : Buffer
  sent : List (UInt8 × UInt8)

def oledCmd : UInt8 := 0x00
def oledData : UInt8 := 0x40

def oledWriteCmd (d : Oled) (cmd : UInt8) : Oled := { d with sent := d.sent ++ [(oledCmd, cmd)] }

def oledWriteData (d : Oled) (data : UInt8) : Oled :=
  { d with sent := d.sent ++ [(oledData, data)] }

def oledRefresh (d : Oled) : Oled :=
  let d := oledWriteCmd (oledWriteCmd (oledWriteCmd d 0x21) 0) 127
  let d := oledWriteCmd (oledWriteCmd (oledWriteCmd d 0x22) 0) 7
  d.buffer.toList.foldl oledWriteData d

def oledClear (d : Oled) : Oled := oledRefresh { d with buffer := Vector.replicate 1024 0 }

/-- The commands of `oled_init`, in their order. -/
def initSequence : List UInt8 :=
  [0xAE, 0xD5, 0x80, 0xA8, 0x3F, 0xD3, 0x00, 0x40, 0x8D, 0x14, 0x20, 0x00, 0xA1, 0xC8, 0xDA, 0x12,
    0x81, 0xCF, 0xD9, 0xF1, 0xDB, 0x40, 0xA4, 0xA6, 0x2E, 0xAF]

def rtEok : Int := 0
def rtError : Int := 1

/-- `oled_init`, where the bus is `found` and opening it returns `ret`. -/
def oledInit (found : Bool) (ret : Int) (d : Oled) : Int × Oled :=
  if !found then (-rtError, d)
  else if ret ≠ rtEok then (ret, d)
  else (rtEok, oledClear (initSequence.foldl oledWriteCmd d))

def oledDrawPoint (d : Oled) (x y color : UInt8) : Oled :=
  if h : x.toNat ≥ 128 ∨ y.toNat ≥ 64 then d
  else
    let page := y / 8
    let bit := y % 8
    have hpage : page.toNat = y.toNat / 8 := UInt8.toNat_div y 8
    have hi : x.toNat + page.toNat * 128 < 1024 := by omega
    let byte := d.buffer[x.toNat + page.toNat * 128]
    let byte := if color ≠ 0 then byte ||| (1 <<< bit) else byte &&& ~~~(1 <<< bit)
    { d with buffer := d.buffer.set (x.toNat + page.toNat * 128) byte }

/-- The loop over a row of a character, from column `j` on with `n` columns to go. -/
def drawRow (d : Oled) (x y i : UInt8) : Nat → UInt8 → Oled
  | 0, _ => d
  | n + 1, j => drawRow (oledDrawPoint d (x + j) (y + i) 1) x y i n (j + 1)

/-- The loop over the rows of a character, from row `i` on with `n` rows to go. -/
def drawRows (d : Oled) (x y size : UInt8) : Nat → UInt8 → Oled
  | 0, _ => d
  | n + 1, i => drawRows (drawRow d x y i size.toNat 0) x y size n (i + 1)

/-- `oled_show_char`; without a font every character is a full square. -/
def oledShowChar (d : Oled) (x y : UInt8) (_ch : Char) (size : UInt8) : Oled :=
  if x.toNat > oledWidth - 1 ∨ y.toNat > oledHeight - 1 then d
  else oledRefresh (drawRows d x y size size.toNat 0)

/-- The loop of `oled_show_string`; the comparisons are between `int`s. -/
def showChars (d : Oled) (x y : UInt8) (size : UInt8) : List Char → Oled
  | [] => d
  | ch :: str =>
    let wraps : Bool := (x.toNat : Int) > oledWidth - size.toNat
    let x := if wraps then 0 else x
    let y := if wraps then y + size else y
    let full : Bool := (y.toNat : Int) > oledHeight - size.toNat
    let x := if full then 0 else x
    let y := if full then 0 else y
    let d := if full then oledClear d else d
    showChars (oledShowChar d x y ch size) (x + size / 2) y size str

def oledShowString (d : Oled) (x y : UInt8) (str : List Char) (size : UInt8) : Oled :=
  oledRefresh (showChars d x y size str)

/-- `oled_show_num`: `%d` reads the number as a signed one. -/
def oledShowNum (d : Oled) (x y : UInt8) (num : UInt32) (_len size : UInt8) : Oled :=
  oledShowString d x y (toString num.toInt32.toInt).toList size

def oledDisplayOff (d : Oled) : Oled := oledWriteCmd d 0xAE

def oledDisplayOn (d : Oled) : Oled := oledWriteCmd d 0xAF

/-- The calls of the driver's users. -/
inductive Call where
  | clear
  | refresh
  | drawPoint (x y color : UInt8)
  | showChar (x y : UInt8) (ch : Char) (size : UInt8)
  | showString (x y : UInt8) (str : List Char) (size : UInt8)
  | showNum (x y : UInt8) (num : UInt32) (len size : UInt8)
  | displayOff
  | displayOn

def Oled.call (d : Oled) : Call → Oled
  | .clear => oledClear d
  | .refresh => oledRefresh d
  | .drawPoint x y color => oledDrawPoint d x y color
  | .showChar x y ch size => oledShowChar d x y ch size
  | .showString x y str size => oledShowString d x y str size
  | .showNum x y num len size => oledShowNum d x y num len size
  | .displayOff => oledDisplayOff d
  | .displayOn => oledDisplayOn d

/-! ## The panel -/

/-- An SSD1306: its memory of pages and columns, the addressing mode, whether it is on, and the
bytes of a command whose arguments are still to come. -/
structure Panel where
  cells : Window UInt8
  mode : UInt8
  on : Bool
  pending : List UInt8

/-- The arguments of the commands that the driver sends. -/
def arguments (cmd : UInt8) : Nat :=
  if cmd = 0x21 ∨ cmd = 0x22 then 2
  else if cmd = 0x20 ∨ cmd = 0x81 ∨ cmd = 0x8D ∨ cmd = 0xA8 ∨ cmd = 0xD3 ∨ cmd = 0xD5 ∨
    cmd = 0xD9 ∨ cmd = 0xDA ∨ cmd = 0xDB then 1
  else 0

/-- Execute a command: the addressing mode, the window of columns or of pages, on and off. The
others set up the drive of the pixels. -/
def Panel.execute (p : Panel) : List UInt8 → Panel
  | [cmd] =>
    if cmd = 0xAE then { p with on := false }
    else if cmd = 0xAF then { p with on := true }
    else p
  | [cmd, m] => if cmd = 0x20 then { p with mode := m &&& 3 } else p
  | [cmd, a, b] =>
    if cmd = 0x21 then { p with
      cells.colStart := a.toNat % 128, cells.colEnd := b.toNat % 128, cells.col := a.toNat % 128 }
    else if cmd = 0x22 then { p with
      cells.rowStart := a.toNat % 8, cells.rowEnd := b.toNat % 8, cells.row := a.toNat % 8 }
    else p
  | _ => p

/-- A byte of data: in the horizontal mode along the rows, in the vertical one down the columns, in
the page mode along one row. -/
def Panel.store (p : Panel) (v : UInt8) : Panel :=
  if p.mode = 0 then { p with cells := p.cells.put v }
  else if p.mode = 1 then { p with
    cells.ram := (p.cells.put v).ram
    cells.row := if p.cells.row = p.cells.rowEnd then p.cells.rowStart else p.cells.row + 1
    cells.col := if p.cells.row = p.cells.rowEnd then
        if p.cells.col = p.cells.colEnd then p.cells.colStart else p.cells.col + 1
      else p.cells.col }
  else { p with
    cells.ram := (p.cells.put v).ram
    cells.col := if p.cells.col = p.cells.colEnd then p.cells.colStart else p.cells.col + 1 }

/-- A packet from the bus. -/
def Panel.receive (p : Panel) (packet : UInt8 × UInt8) : Panel :=
  if packet.1 = 0x00 then
    let cmd := p.pending ++ [packet.2]
    if (cmd.head?.map arguments).getD 0 < cmd.length then
      { p.execute cmd with pending := [] }
    else { p with pending := cmd }
  else if packet.1 = 0x40 then p.store packet.2
  else p

/-- A pixel of the panel's memory. -/
def Panel.lit (p : Panel) (x y : Nat) : Bool := (p.cells.ram (y / 8) x).toNat.testBit (y % 8)

/-! ## Pixels of the buffer -/

/-- A pixel of the frame buffer. -/
def Oled.lit (d : Oled) (x y : Nat) : Bool :=
  (d.buffer.toList[x + y / 8 * 128]?.getD 0).toNat.testBit (y % 8)

theorem toNat_one_shiftLeft {b : UInt8} (hb : b.toNat < 8) : (1 <<< b).toNat = 2 ^ b.toNat := by
  have hlt : 2 ^ b.toNat < 2 ^ 8 := Nat.pow_lt_pow_right (by decide) hb
  rw [UInt8.toNat_shiftLeft, Nat.mod_eq_of_lt hb]
  simpa [Nat.shiftLeft_eq] using hlt

theorem testBit_set (v : UInt8) {b : UInt8} (hb : b.toNat < 8) (k : Nat) :
    (v ||| (1 <<< b)).toNat.testBit k = (v.toNat.testBit k || decide (b.toNat = k)) := by
  rw [UInt8.toNat_or, toNat_one_shiftLeft hb, Nat.testBit_or, Nat.testBit_two_pow]

theorem testBit_reset (v : UInt8) {b : UInt8} (hb : b.toNat < 8) {k : Nat} (hk : k < 8) :
    (v &&& ~~~(1 <<< b)).toNat.testBit k = (v.toNat.testBit k && !decide (b.toNat = k)) := by
  have hlt : 2 ^ b.toNat < 2 ^ 8 := Nat.pow_lt_pow_right (by decide) hb
  have hnot : (~~~(1 <<< b)).toNat = 2 ^ 8 - (2 ^ b.toNat + 1) := by
    rw [UInt8.toNat_not, toNat_one_shiftLeft hb, UInt8.size]
    omega
  rw [UInt8.toNat_and, hnot, Nat.testBit_and, Nat.testBit_two_pow_sub_succ hlt,
    Nat.testBit_two_pow]
  simp [hk]

variable {d : Oled} {x y color size : UInt8} {px py : Nat}

/-- **`oled_draw_point` sets its own pixel and no other.** -/
theorem lit_drawPoint (hx : px < 128) (hy : py < 64) :
    (oledDrawPoint d x y color).lit px py =
      if x.toNat = px ∧ y.toNat = py then decide (color ≠ 0) else d.lit px py := by
  unfold oledDrawPoint
  split
  · rename_i h
    rw [if_neg (by omega)]
  · rename_i h
    have hbit : (y % 8).toNat = y.toNat % 8 := UInt8.toNat_mod y 8
    have hpage : (y / 8).toNat = y.toNat / 8 := UInt8.toNat_div y 8
    have hb : (y % 8).toNat < 8 := by omega
    have hk : py % 8 < 8 := Nat.mod_lt _ (by decide)
    simp only [Oled.lit, Vector.toList_set, hpage, List.getElem?_set]
    by_cases hcell : x.toNat + y.toNat / 8 * 128 = px + py / 8 * 128
    · have hsame : x.toNat = px ∧ y.toNat = py ↔ y.toNat % 8 = py % 8 := by omega
      have hlen : px + py / 8 * 128 < d.buffer.toList.length := by simp; omega
      have hget : d.buffer.toList[px + py / 8 * 128]? = some d.buffer[px + py / 8 * 128] := by
        rw [List.getElem?_eq_getElem hlen]
        rfl
      simp only [hcell, if_true, hlen, hsame, Option.getD_some, hget]
      by_cases hc : color = 0
      · simp only [hc, ne_eq, not_true_eq_false, if_false, decide_false, testBit_reset _ hb hk,
          hbit]
        split <;> simp_all
      · simp only [hc, ne_eq, not_false_eq_true, if_true, decide_true, testBit_set _ hb, hbit]
        split <;> simp_all
    · rw [if_neg hcell, if_neg (by omega)]

/-- Column or row `p` is among the `n` from `x` on, counted modulo 256 as the code does. -/
def Within (x : UInt8) (n p : Nat) : Prop := (UInt8.ofNat p - x).toNat < n

/-- Where the counting does not wrap, these are the columns from `x` on. -/
theorem within_iff {n p : Nat} (hp : p < 256) (h : x.toNat + n ≤ 256) :
    Within x n p ↔ x.toNat ≤ p ∧ p < x.toNat + n := by
  have hlt := x.toNat_lt
  have hof : (UInt8.ofNat p).toNat = p := UInt8.toNat_ofNat_of_lt' hp
  unfold Within
  rw [UInt8.toNat_sub, hof]
  omega

/-- The next column, or one of those behind it. -/
theorem within_succ {n p : Nat} (hp : p < 256) :
    Within x (n + 1) p ↔ x.toNat = p ∨ Within (x + 1) n p := by
  have hlt := x.toNat_lt
  have hof : (UInt8.ofNat p).toNat = p := UInt8.toNat_ofNat_of_lt' hp
  unfold Within
  rw [UInt8.toNat_sub, UInt8.toNat_sub, UInt8.toNat_add, hof]
  have : (1 : UInt8).toNat = 1 := rfl
  omega

/-- A point drawn in colour 1 is lit. -/
theorem lit_drawPoint_one (hx : px < 128) (hy : py < 64) :
    (oledDrawPoint d x y 1).lit px py ↔ d.lit px py ∨ x.toNat = px ∧ y.toNat = py := by
  rw [lit_drawPoint hx hy]
  split
  · rename_i h
    simp [h]
  · rename_i h
    simp only [h, or_false]

theorem lit_drawRow (hx : px < 128) (hy : py < 64) (n : Nat) (d : Oled) (i j : UInt8) :
    (drawRow d x y i n j).lit px py ↔
      d.lit px py ∨ Within (x + j) n px ∧ (y + i).toNat = py := by
  induction n generalizing d j with
  | zero => simp [drawRow, Within]
  | succ n ih =>
    rw [drawRow, ih, lit_drawPoint_one hx hy, within_succ (by omega), UInt8.add_assoc, or_assoc,
      ← or_and_right]

theorem lit_drawRows (hx : px < 128) (hy : py < 64) (n : Nat) (d : Oled) (i : UInt8) :
    (drawRows d x y size n i).lit px py ↔
      d.lit px py ∨ Within x size.toNat px ∧ Within (y + i) n py := by
  induction n generalizing d i with
  | zero => simp [drawRows, Within]
  | succ n ih =>
    rw [drawRows, ih, lit_drawRow hx hy, within_succ (by omega), UInt8.add_assoc, UInt8.add_zero,
      or_assoc, ← and_or_left]

/-! ## The panel behind the bus -/

/-- The panel after what the driver has sent, from power on. -/
def Oled.panel (p : Panel) (d : Oled) : Panel := d.sent.foldl Panel.receive p

/-- No command is open and data go along the rows. -/
structure Panel.Ready (p : Panel) : Prop where
  pending : p.pending = []
  mode : p.mode = 0

/-- The panel's memory is the frame buffer. -/
def Panel.Holds (p : Panel) (b : Buffer) : Prop :=
  ∀ page < 8, ∀ col < 128, some (p.cells.ram page col) = b.toList[page * 128 + col]?

variable {p : Panel}

theorem panel_writeCmd (p : Panel) (d : Oled) (cmd : UInt8) :
    (oledWriteCmd d cmd).panel p = (d.panel p).receive (oledCmd, cmd) := by
  simp [Oled.panel, oledWriteCmd]

theorem panel_writeData (p : Panel) (d : Oled) (data : UInt8) :
    (oledWriteData d data).panel p = (d.panel p).receive (oledData, data) := by
  simp [Oled.panel, oledWriteData]

/-- Data for a panel that is ready fill its window. -/
theorem panel_foldl_writeData (l : List UInt8) {d : Oled} (h : (d.panel p).mode = 0) :
    (l.foldl oledWriteData d).panel p =
      { d.panel p with cells := l.foldl Window.put (d.panel p).cells } := by
  induction l generalizing d with
  | nil => rfl
  | cons v l ih =>
    have hv : (oledWriteData d v).panel p =
        { d.panel p with cells := (d.panel p).cells.put v } := by
      rw [panel_writeData]
      simp [Panel.receive, Panel.store, oledData, h]
    rw [List.foldl_cons, ih (by rw [hv]; exact h), hv]
    rfl

/-- The commands of a refresh open the whole memory as the window. -/
theorem panel_window (h : p.pending = []) :
    ([0x21, 0, 127, 0x22, 0, 7].map fun c => (oledCmd, c)).foldl Panel.receive p =
      { p with cells := { p.cells with
          colStart := 0, colEnd := 127, col := 0, rowStart := 0, rowEnd := 7, row := 0 } } := by
  obtain ⟨cells, mode, on, pending⟩ := p
  obtain rfl : pending = [] := h
  simp [Panel.receive, arguments, Panel.execute, oledCmd]

theorem panel_foldl_writeCmd (l : List UInt8) (d : Oled) :
    (l.foldl oledWriteCmd d).panel p =
      (l.map fun c => (oledCmd, c)).foldl Panel.receive (d.panel p) := by
  induction l generalizing d with
  | nil => rfl
  | cons c l ih => rw [List.foldl_cons, ih, panel_writeCmd, List.map_cons, List.foldl_cons]

/-- The commands of `oled_init` leave any panel on and ready, and send no data. -/
theorem panel_initSequence (h : p.pending = []) :
    (initSequence.map fun c => (oledCmd, c)).foldl Panel.receive p =
      { p with mode := 0, on := true } := by
  obtain ⟨cells, mode, on, pending⟩ := p
  obtain rfl : pending = [] := h
  simp [initSequence, Panel.receive, arguments, Panel.execute, oledCmd]

/-- **A refresh copies the frame buffer to the panel**, wherever its cursor was. -/
theorem panel_refresh (h : (d.panel p).Ready) : ((oledRefresh d).panel p).Ready ∧
    ((oledRefresh d).panel p).on = (d.panel p).on ∧ ((oledRefresh d).panel p).Holds d.buffer := by
  obtain ⟨hpending, hmode⟩ := h
  let d' := [0x21, 0, 127, 0x22, 0, 7].foldl oledWriteCmd d
  have hd' : d'.panel p = { d.panel p with cells := { (d.panel p).cells with
      colStart := 0, colEnd := 127, col := 0, rowStart := 0, rowEnd := 7, row := 0 } } :=
    (panel_foldl_writeCmd _ d).trans (panel_window hpending)
  have hr : (oledRefresh d).panel p = { d'.panel p with
      cells := d.buffer.toList.foldl Window.put (d'.panel p).cells } :=
    panel_foldl_writeData d.buffer.toList (d := d') (by rw [hd']; exact hmode)
  have hat : (d'.panel p).cells.At 0 := by
    rw [hd']
    exact .home (Nat.zero_le 7) (Nat.zero_le 127) rfl rfl
  have hwidth : (d'.panel p).cells.width = 128 := by rw [hd']; rfl
  have hheight : (d'.panel p).cells.height = 8 := by rw [hd']; rfl
  obtain ⟨-, hfill⟩ := Window.foldl_put hat (l := d.buffer.toList)
    (by rw [hwidth, hheight]; exact Vector.length_toList)
  rw [hr]
  refine ⟨⟨by rw [hd']; exact hpending, by rw [hd']; exact hmode⟩, by rw [hd'], ?_⟩
  intro page hpage col hcol
  have hin : (d'.panel p).cells.Inside page col := by
    rw [hd']
    exact ⟨Nat.zero_le _, Nat.le_of_lt_succ hpage, Nat.zero_le _, Nat.le_of_lt_succ hcol⟩
  have := hfill page col hin
  rw [hwidth] at this
  rw [this, hd']
  rfl

theorem oledRefresh_buffer (d : Oled) : (oledRefresh d).buffer = d.buffer := by
  have hdata (l : List UInt8) (d : Oled) : (l.foldl oledWriteData d).buffer = d.buffer := by
    induction l generalizing d with
    | nil => rfl
    | cons v l ih => exact ih (oledWriteData d v)
  exact hdata _ _

theorem oledRefresh_lit (d : Oled) : (oledRefresh d).lit px py = d.lit px py := by
  rw [Oled.lit, oledRefresh_buffer, Oled.lit]

/-- A panel that holds the buffer shows its pixels. -/
theorem Panel.Holds.lit (h : p.Holds d.buffer) (hx : px < 128) (hy : py < 64) :
    p.lit px py = d.lit px py := by
  have := h (py / 8) (by omega) px hx
  rw [Panel.lit, Oled.lit, Nat.add_comm px, ← this]
  rfl

/-! ## The two pictures -/

/-- The picture drawn so far, the picture shown, and whether the panel is on. -/
structure Canvas where
  drawn : Set (Nat × Nat)
  shown : Set (Nat × Nat)
  on : Bool

/-- The pixels there are. -/
def screen : Set (Nat × Nat) := {q | q.1 < 128 ∧ q.2 < 64}

/-- The square of a character, cut off at the edge of the screen. -/
def square (x y size : UInt8) : Set (Nat × Nat) :=
  {q | q ∈ screen ∧ Within x size.toNat q.1 ∧ Within y size.toNat q.2}

namespace Canvas

def blank : Canvas := ⟨∅, ∅, true⟩

def clear (c : Canvas) : Canvas := { c with drawn := ∅, shown := ∅ }

def refresh (c : Canvas) : Canvas := { c with shown := c.drawn }

def drawPoint (c : Canvas) (x y color : UInt8) : Canvas :=
  if color = 0 then { c with drawn := c.drawn \ {(x.toNat, y.toNat)} }
  else { c with drawn := c.drawn ∪ {(x.toNat, y.toNat)} }

/-- A character that starts on the screen is drawn and shown. -/
noncomputable def showChar (c : Canvas) (x y size : UInt8) : Canvas :=
  open Classical in
  if (x.toNat, y.toNat) ∈ screen then refresh { c with drawn := c.drawn ∪ square x y size } else c

end Canvas

/-- Where the next character of a text goes. -/
structure Place where
  x : UInt8
  y : UInt8
  /-- The screen is cleared first. -/
  full : Bool

/-- The place of a character, from the place its predecessor leaves. -/
def place (x y size : UInt8) : Place :=
  let wraps : Bool := (x.toNat : Int) > oledWidth - size.toNat
  let x := if wraps then 0 else x
  let y := if wraps then y + size else y
  let full : Bool := (y.toNat : Int) > oledHeight - size.toNat
  ⟨if full then 0 else x, if full then 0 else y, full⟩

/-- The places of `n` characters. -/
def places (size : UInt8) : Nat → UInt8 → UInt8 → List Place
  | 0, _, _ => []
  | n + 1, x, y =>
    let q := place x y size
    q :: places size n (q.x + size / 2) q.y

namespace Canvas

/-- A character at its place. -/
noncomputable def putChar (size : UInt8) (c : Canvas) (q : Place) : Canvas :=
  (if q.full then c.clear else c).showChar q.x q.y size

/-- A text of `n` characters. -/
noncomputable def showString (c : Canvas) (x y size : UInt8) (n : Nat) : Canvas :=
  ((places size n x y).foldl (putChar size) c).refresh

/-- What a call of the driver does to the pictures. -/
noncomputable def call (c : Canvas) : Call → Canvas
  | .clear => c.clear
  | .refresh => c.refresh
  | .drawPoint x y color => c.drawPoint x y color
  | .showChar x y _ size => c.showChar x y size
  | .showString x y str size => c.showString x y size str.length
  | .showNum x y num _ size =>
    c.showString x y size (toString num.toInt32.toInt).toList.length
  | .displayOff => { c with on := false }
  | .displayOn => { c with on := true }

end Canvas

/-- The driver and the panel realise the two pictures. -/
structure Shows (p : Panel) (d : Oled) (c : Canvas) : Prop where
  ready : (d.panel p).Ready
  on : (d.panel p).on = c.on
  drawn : ∀ px < 128, ∀ py < 64, d.lit px py ↔ (px, py) ∈ c.drawn
  shown : ∀ px < 128, ∀ py < 64, (d.panel p).lit px py ↔ (px, py) ∈ c.shown

variable {c : Canvas}

theorem Shows.refresh (h : Shows p d c) : Shows p (oledRefresh d) c.refresh := by
  obtain ⟨hready, hon, hholds⟩ := panel_refresh h.ready
  refine ⟨hready, hon.trans h.on, fun px hx py hy => ?_, fun px hx py hy => ?_⟩
  · rw [oledRefresh_lit]
    exact h.drawn px hx py hy
  · rw [hholds.lit hx hy]
    exact h.drawn px hx py hy

theorem lit_blank (l : List (UInt8 × UInt8)) :
    (Oled.mk (Vector.replicate 1024 0) l).lit px py = false := by
  simp only [Oled.lit, Vector.toList_replicate, List.getElem?_replicate]
  split <;> simp

theorem Shows.clear (h : Shows p d c) : Shows p (oledClear d) c.clear := by
  have hblank : Shows p { d with buffer := Vector.replicate 1024 0 } { c with drawn := ∅ } := by
    refine ⟨h.ready, h.on, fun px _ py _ => ?_, h.shown⟩
    rw [lit_blank]
    simp
  exact hblank.refresh

/-- The calls that only draw send nothing. -/
theorem oledDrawPoint_sent (d : Oled) (x y color : UInt8) :
    (oledDrawPoint d x y color).sent = d.sent := by
  unfold oledDrawPoint
  split <;> rfl

theorem drawRow_sent (x y i : UInt8) (n : Nat) (d : Oled) (j : UInt8) :
    (drawRow d x y i n j).sent = d.sent := by
  induction n generalizing d j with
  | zero => rfl
  | succ n ih => rw [drawRow, ih, oledDrawPoint_sent]

theorem drawRows_sent (x y size : UInt8) (n : Nat) (d : Oled) (i : UInt8) :
    (drawRows d x y size n i).sent = d.sent := by
  induction n generalizing d i with
  | zero => rfl
  | succ n ih => rw [drawRows, ih, drawRow_sent]

/-- Drawing changes the picture that is drawn. -/
theorem Shows.draw (h : Shows p d c) {d' : Oled} {s : Set (Nat × Nat)} (hsent : d'.sent = d.sent)
    (hs : ∀ px < 128, ∀ py < 64, d'.lit px py ↔ (px, py) ∈ s) :
    Shows p d' { c with drawn := s } := by
  have hp : d'.panel p = d.panel p := by rw [Oled.panel, hsent, Oled.panel]
  exact ⟨hp ▸ h.ready, hp ▸ h.on, hs, hp ▸ h.shown⟩

theorem Shows.drawPoint (h : Shows p d c) (x y color : UInt8) :
    Shows p (oledDrawPoint d x y color) (c.drawPoint x y color) := by
  have heq {px py : Nat} : (x.toNat = px ∧ y.toNat = py) ↔ (px, py) = (x.toNat, y.toNat) := by
    rw [Prod.mk.injEq, eq_comm, @eq_comm _ y.toNat]
  by_cases hc : color = 0
  · rw [Canvas.drawPoint, if_pos hc]
    refine h.draw (oledDrawPoint_sent d x y color) fun px hx py hy => ?_
    rw [lit_drawPoint hx hy, Set.mem_sdiff, Set.mem_singleton_iff, ← heq, ← h.drawn px hx py hy]
    split <;> simp_all
  · rw [Canvas.drawPoint, if_neg hc]
    refine h.draw (oledDrawPoint_sent d x y color) fun px hx py hy => ?_
    rw [lit_drawPoint hx hy, Set.mem_union, Set.mem_singleton_iff, ← heq, ← h.drawn px hx py hy]
    split <;> simp_all

theorem Shows.showChar (h : Shows p d c) (x y : UInt8) (ch : Char) (size : UInt8) :
    Shows p (oledShowChar d x y ch size) (c.showChar x y size) := by
  unfold oledShowChar Canvas.showChar
  by_cases hin : (x.toNat, y.toNat) ∈ screen
  · rw [if_pos hin, if_neg]
    · refine (h.draw (drawRows_sent x y size size.toNat d 0) fun px hx py hy => ?_).refresh
      rw [lit_drawRows hx hy, UInt8.add_zero, Set.mem_union, ← h.drawn px hx py hy]
      simp [square, screen, hx, hy]
    · simp only [screen, Set.mem_ofPred_eq] at hin
      simp only [oledWidth, oledHeight]
      omega
  · rw [if_neg hin, if_pos]
    · exact h
    · simp only [screen, Set.mem_ofPred_eq] at hin
      simp only [oledWidth, oledHeight]
      omega

theorem Shows.showChars (size : UInt8) (str : List Char) (h : Shows p d c) (x y : UInt8) :
    Shows p (showChars d x y size str)
      ((places size str.length x y).foldl (Canvas.putChar size) c) := by
  induction str generalizing d c x y with
  | nil => exact h
  | cons ch str ih =>
    have hput : Shows p (oledShowChar (if (place x y size).full then oledClear d else d)
        (place x y size).x (place x y size).y ch size) (c.putChar size (place x y size)) := by
      unfold Canvas.putChar
      split
      · exact h.clear.showChar _ _ ch size
      · exact h.showChar _ _ ch size
    exact ih hput _ _

theorem receive_switch (h : p.pending = []) (b : Bool) :
    p.receive (oledCmd, if b then 0xAF else 0xAE) = { p with on := b } := by
  obtain ⟨cells, mode, on, pending⟩ := p
  obtain rfl : pending = [] := h
  cases b <;> simp [Panel.receive, arguments, Panel.execute, oledCmd]

theorem Shows.switch (h : Shows p d c) (b : Bool) :
    Shows p (oledWriteCmd d (if b then 0xAF else 0xAE)) { c with on := b } := by
  have hp : (oledWriteCmd d (if b then 0xAF else 0xAE)).panel p = { d.panel p with on := b } := by
    rw [panel_writeCmd, receive_switch h.ready.pending]
  refine ⟨?_, ?_, h.drawn, ?_⟩
  · rw [hp]
    exact ⟨h.ready.pending, h.ready.mode⟩
  · rw [hp]
  · rw [hp]
    exact h.shown

theorem Shows.call (h : Shows p d c) (k : Call) : Shows p (d.call k) (c.call k) := by
  cases k with
  | clear => exact h.clear
  | refresh => exact h.refresh
  | drawPoint x y color => exact h.drawPoint x y color
  | showChar x y ch size => exact h.showChar x y ch size
  | showString x y str size => exact (h.showChars size str x y).refresh
  | showNum x y num len size => exact (h.showChars size _ x y).refresh
  | displayOff => exact h.switch false
  | displayOn => exact h.switch true

theorem Shows.calls (h : Shows p d c) (ks : List Call) :
    Shows p (ks.foldl Oled.call d) (ks.foldl Canvas.call c) := by
  induction ks generalizing d c with
  | nil => exact h
  | cons k ks ih => exact ih (h.call k)

/-- The driver initialised, whatever was in its buffer and on the panel. -/
theorem shows_init (hp : p.pending = []) (b : Buffer) :
    Shows p (oledInit true rtEok ⟨b, []⟩).2 .blank := by
  have hseq : (initSequence.foldl oledWriteCmd ⟨b, []⟩).panel p =
      { p with mode := 0, on := true } :=
    (panel_foldl_writeCmd initSequence ⟨b, []⟩).trans (panel_initSequence hp)
  have hinit : (oledInit true rtEok ⟨b, []⟩).2 =
      oledClear (initSequence.foldl oledWriteCmd ⟨b, []⟩) := by
    simp [oledInit]
  rw [hinit]
  generalize initSequence.foldl oledWriteCmd ⟨b, []⟩ = d at hseq
  have hready : (Oled.panel p { d with buffer := Vector.replicate 1024 0 }).Ready := by
    rw [show Oled.panel p { d with buffer := Vector.replicate 1024 0 } = d.panel p from rfl, hseq]
    exact ⟨hp, rfl⟩
  obtain ⟨hready, hon, hholds⟩ := panel_refresh hready
  refine ⟨hready, hon.trans ?_, fun px _ py _ => ?_, fun px hx py hy => ?_⟩
  · rw [show Oled.panel p { d with buffer := Vector.replicate 1024 0 } = d.panel p from rfl, hseq]
    rfl
  · rw [oledClear, oledRefresh_lit, lit_blank]
    simp [Canvas.blank]
  · rw [oledClear, hholds.lit hx hy, lit_blank]
    simp [Canvas.blank]

/-- **The panel shows what was drawn**: after `oled_init` and any calls, the panel is on or off and
its pixels are lit as the two pictures say, whatever it held at power on. -/
theorem panel_eq (hp : p.pending = []) (b : Buffer) (ks : List Call) :
    ((ks.foldl Oled.call (oledInit true rtEok ⟨b, []⟩).2).panel p).on =
        (ks.foldl Canvas.call .blank).on ∧
      ∀ px < 128, ∀ py < 64,
        ((ks.foldl Oled.call (oledInit true rtEok ⟨b, []⟩).2).panel p).lit px py ↔
          (px, py) ∈ (ks.foldl Canvas.call .blank).shown := by
  have h := (shows_init hp b).calls ks
  exact ⟨h.on, h.shown⟩

/-- A panel that came up with its memory full, in the page mode, and a cursor somewhere. -/
theorem panel_eq_garbage : let p : Panel := ⟨⟨fun _ _ => 0xFF, 2, 5, 9, 100, 3, 17⟩, 2, false, []⟩
    let ks : List Call := [.showString 120 60 "WiFi".toList 12, .drawPoint 3 4 0, .displayOff]
    let d := ks.foldl Oled.call (oledInit true rtEok ⟨Vector.replicate 1024 7, []⟩).2
    (d.panel p).on = (ks.foldl Canvas.call .blank).on ∧ ∀ px < 128, ∀ py < 64,
      (d.panel p).lit px py ↔ (px, py) ∈ (ks.foldl Canvas.call .blank).shown :=
  panel_eq rfl (Vector.replicate 1024 7) _

end OSCompas.Display
