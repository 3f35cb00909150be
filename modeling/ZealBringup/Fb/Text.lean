import ZealBringup.Fb.Fill

/-!
# The text console of the tasks

Each of eight slots keeps the characters a task has printed, with a cursor of its own; what a
slot prints is also stored in the cells of the screen and drawn.  A window may be anywhere on
the screen and of any size, and may be another one at the next call.

* `zealFbTaskTextWrite` — one call.
* `fbTaskTextScroll` — a scroll, in one of its two ways.
-/

namespace ZealBringup.Fb

/-! ## Cells -/

/-- Packed cells and which of them are valid; a row has `ZEAL_TEXT_MAX_COLS`, which is 512. -/
structure Cells where
  cell : ℕ → UInt32
  valid : ℕ → Bool

namespace Cells

def put (a : Cells) (i : ℕ) (v : UInt32) : Cells :=
  ⟨Function.update a.cell i v, Function.update a.valid i true⟩

def clear (a : Cells) (i : ℕ) : Cells :=
  ⟨Function.update a.cell i 0, Function.update a.valid i false⟩

def copy (a : Cells) (dst src : ℕ) : Cells :=
  ⟨Function.update a.cell dst (a.cell src), Function.update a.valid dst (a.valid src)⟩

/-- `for (x = 0; x < width; x++)` over a row that is copied. -/
def copyRow (width dst src : ℕ) (a : Cells) : Cells :=
  (List.range width).foldl (fun a x => a.copy (dst + x) (src + x)) a

def clearRow (width row : ℕ) (a : Cells) : Cells :=
  (List.range width).foldl (fun a x => a.clear (row + x)) a

/-- The two loops of a scroll: each row is copied to the one before it, and the last cleared. -/
def scroll (width height : ℕ) (a : Cells) : Cells :=
  clearRow width ((height - 1) * 512)
    ((List.range' 1 (height - 1)).foldl (fun a y =>
      copyRow width ((y - 1) * 512) (y * 512) a) a)

/-- The cell in column `x` of row `y`. -/
def look (a : Cells) (x y : ℕ) : Option UInt32 :=
  if a.valid (y * 512 + x) then some (a.cell (y * 512 + x)) else none

end Cells

/-- What a slot retains. -/
structure Slot where
  cells : Cells
  x : ℕ
  y : ℕ

/-- What all slots share: the cells of the screen, and the buffers. -/
structure Shared where
  cells : Cells
  mem : Memory

structure Console where
  slots : Fin 8 → Slot
  shared : Shared

/-! ## Drawing a cell -/

def textPalette (i : ℕ) : UInt32 :=
  [0x00000000, 0x000000aa, 0x0000aa00, 0x0000aaaa, 0x00aa0000, 0x00aa00aa, 0x00aa5500, 0x00aaaaaa,
    0x00555555, 0x005555ff, 0x0055ff55, 0x0055ffff, 0x00ff5555, 0x00ff55ff, 0x00ffff55,
    0x00ffffff].getD i 0

/-- The rows of the glyph of a character. -/
abbrev Font := UInt8 → ℕ → UInt8

def Screen.cols (s : Screen) : ℕ := s.w / 8

def Screen.rows (s : Screen) : ℕ := s.h / 8

def glyphBit (font : Font) (ch : UInt8) (r c : ℕ) : Bool := (font ch r).toNat.testBit (7 - c)

def fbDrawChar (s : Screen) (font : Font) (col row : UInt32) (ch : UInt8) (fg : UInt32) :
    List Write :=
  if !s.fb then [] else
  (List.range 8).flatMap fun r => (List.range 8).flatMap fun c =>
    if glyphBit font ch r c then fbPutpixel s (col * 8 + .ofNat c) (row * 8 + .ofNat r) fg else []

/-- The colours of a packed cell, exchanged if it is selected or inverted. -/
def cellColors (packed : UInt32) : UInt32 :=
  let colors := (packed >>> 8) &&& 0xff
  if packed &&& (0x20000000 ||| 0x40000000) ≠ 0 then colors ^^^ 0xff else colors

def cellFg (packed : UInt32) : UInt32 := textPalette (cellColors packed &&& 15).toNat

def cellBg (packed : UInt32) : UInt32 := textPalette ((cellColors packed >>> 4) &&& 15).toNat

def fbTextPresentCell (s : Screen) (font : Font) (col row packed : UInt32) : List Write :=
  if !s.fb || s.cols ≤ col.toNat || s.rows ≤ row.toNat then [] else
  fbFillrect s (col * 8) (row * 8) 8 8 (cellBg packed) ++
    (if 32 ≤ packed.toUInt8 then fbDrawChar s font col row packed.toUInt8 (cellFg packed) else []) ++
    if packed &&& 0x80000000 ≠ 0 then fbFillrect s (col * 8) (row * 8 + 7) 8 1 (cellFg packed) else []

/-- A cell is stored and drawn. -/
def storeCell (s : Screen) (font : Font) (col row : ℕ) (packed : UInt32) (sh : Shared) : Shared where
  cells := sh.cells.put (row * 512 + col) packed
  mem := draw (fbTextPresentCell s font (.ofNat col) (.ofNat row) packed) sh.mem

/-! ## Scrolling -/

variable (s : Screen) (font : Font)

def fbTaskTextPresentRow (a : Cells) (left top width row : ℕ) (sh : Shared) : Shared :=
  (List.range width).foldl (fun sh x =>
    if !a.valid (row * 512 + x) then sh
    else storeCell s font (left + x) (top + row) (a.cell (row * 512 + x)) sh) sh

def fbTaskTextPresent (a : Cells) (left top width height : ℕ) (sh : Shared) : Shared :=
  (List.range height).foldl (fun sh y => fbTaskTextPresentRow s font a left top width y sh) sh

/-- The rows of pixels above are overwritten with those eight further down. -/
def moveUp (bytes rows : ℕ) (m : Memory) : Memory :=
  (List.range rows).foldl (fun m y => (List.range bytes).foldl (fun m x =>
    Function.update m (.fb, y * s.pitch + x) (m (.fb, (y + 8) * s.pitch + x))) m) m

def fbShellTextScrollPixels (width height : ℕ) (m : Memory) : Option Memory :=
  if !s.fb || width ≠ s.cols || height ≠ s.rows || (s.bpp ≠ 24 && s.bpp ≠ 32) then none else
  let bytes := width * 8 * s.pxb
  let pixelRows := height * 8
  if pixelRows ≤ 8 || s.pitch < bytes then none else
  some (draw (fbFillrect s 0 (.ofNat (pixelRows - 8)) (.ofNat (width * 8)) 8 0x00101820)
    (moveUp s bytes (pixelRows - 8) m))

/-- The pixels have been moved: the cells of the screen follow, and the new row is drawn. -/
def scrollMoved (a : Cells) (left top width height : ℕ) (sh : Shared) : Shared :=
  fbTaskTextPresentRow s font a left top width (height - 1)
    { sh with cells := sh.cells.scroll width height }

/-- All cells are drawn again, over a blank last row if the window is the shell's. -/
def scrollRedrawn (shell : Bool) (a : Cells) (left top width height : ℕ) (sh : Shared) : Shared :=
  fbTaskTextPresent s font a left top width height
    (if shell then { sh with mem := draw (fbFillrect s 0 (.ofNat ((height - 1) * 8))
      (.ofNat (width * 8)) 8 0x00101820) sh.mem } else sh)

local instance eightSlots : NeZero 8 := ⟨by decide⟩

def fbShellTextSlot : Fin 8 := 7

def fbTaskTextScroll (slot : Fin 8) (left top width height : ℕ) (sl : Slot) (sh : Shared) :
    Slot × Shared :=
  let sl := { sl with cells := sl.cells.scroll width height }
  let shell := slot = fbShellTextSlot && left == 0 && top == 0
  match (if shell then fbShellTextScrollPixels s width height sh.mem else none) with
  | some m => (sl, scrollMoved s font sl.cells left top width height { sh with mem := m })
  | none => (sl, scrollRedrawn s font shell sl.cells left top width height sh)

/-! ## Writing -/

/-- A window of the screen: where it is, its size, and the attribute of what is printed. -/
structure TextWindow where
  slot : Fin 8
  left : ℕ
  top : ℕ
  width : ℕ
  height : ℕ
  attr : UInt32

variable (v : TextWindow)

/-- On to the next row, which scrolls the window when it was the last. -/
def nextRow (st : Slot × Shared) : Slot × Shared :=
  let sl := { st.1 with x := 0, y := st.1.y + 1 }
  if v.height ≤ sl.y then
    let st := fbTaskTextScroll s font v.slot v.left v.top v.width v.height sl st.2
    ({ st.1 with y := v.height - 1 }, st.2)
  else (sl, st.2)

/-- The cursor goes back by one. -/
def goBack (sl : Slot) : Slot :=
  if 0 < sl.x then { sl with x := sl.x - 1 }
  else if 0 < sl.y then { sl with x := v.width - 1, y := sl.y - 1 }
  else sl

def textCell (attr : UInt32) (ch : UInt8) : UInt32 := ((attr &&& 0xff) <<< 8) ||| ch.toUInt32

/-- A printed character: the state after it and the cell of the window that was stored. -/
def putChar (ch : UInt8) (st : Slot × Shared) : (Slot × Shared) × Option (ℕ × ℕ) :=
  let st := if v.width ≤ st.1.x then nextRow s font v st else st
  let sl := st.1
  let packed := textCell v.attr ch
  (({ cells := sl.cells.put (sl.y * 512 + sl.x) packed, x := sl.x + 1, y := sl.y },
    storeCell s font (v.left + sl.x) (v.top + sl.y) packed st.2), some (sl.x, sl.y))

/-- One character of the text. -/
def textStep (ch : UInt8) (st : Slot × Shared) : (Slot × Shared) × Option (ℕ × ℕ) :=
  if ch = 13 then (({ st.1 with x := 0 }, st.2), none)
  else if ch = 10 then (nextRow s font v st, none)
  else if ch = 8 then putChar s font v 32 (goBack v st.1, st.2)
  else if ch < 32 then (st, none)
  else putChar s font v ch st

/-- The loop over the text, with the cells stored so far. -/
def textLoop (st : Slot × Shared) (stored : List (ℕ × ℕ)) :
    List UInt8 → (Slot × Shared) × List (ℕ × ℕ)
  | [] => (st, stored)
  | ch :: text =>
    let r := textStep s font v ch st
    textLoop r.1 (stored ++ r.2.toList) text

/-- A call: the slot, the bounds of the window, the attribute and the text, up to its NUL. -/
structure TextCall where
  slot : ℕ
  left : ℤ
  right : ℤ
  top : ℤ
  bottom : ℤ
  attr : UInt32
  text : Option (List UInt8)

def fbTaskTextBounds (left right top bottom : ℤ) : Bool :=
  s.fb && 0 ≤ left && 0 ≤ top && left ≤ right && top ≤ bottom && right < s.cols && bottom < s.rows &&
    right < 512 && bottom < 512

/-- What is read of a text. -/
def textRead (text : List UInt8) : List UInt8 := (text.take 4096).takeWhile (· ≠ 0)

/-- The window of a call that is accepted. -/
def textWindow (c : TextCall) : Option TextWindow :=
  if h : c.slot < 8 then
    if !fbTaskTextBounds s c.left c.right c.top c.bottom then none else
    some ⟨⟨c.slot, h⟩, c.left.toNat, c.top.toNat, (c.right - c.left + 1).toNat,
      (c.bottom - c.top + 1).toNat, c.attr⟩
  else none

/-- The state after a call, and the cells of the window that printing stored. -/
def zealFbTaskTextWrite (c : TextCall) (k : Console) : Console × List (ℕ × ℕ) :=
  match c.text, textWindow s c with
  | some text, some v =>
    let r := textLoop s font v (k.slots v.slot, k.shared) [] (textRead text)
    (⟨Function.update k.slots v.slot r.1.1, r.1.2⟩, r.2)
  | _, _ => (k, [])

end ZealBringup.Fb
