import ZealBringup.Lib.Painter
import ZealBringup.Lib.Sweep

/-!
# The window z-buffers

`WinZBufUpdate` follows the ring of tasks and paints the rectangles of the windows one over
the other, into a plane of text cells and a plane of pixels.  While a cell changes its owner
the counts of uncovered cells go along, and the bitmap of uncovered windows is made from the
counts.

Edges are `I64` numbers.  They are brought on the screen as cells, multiplied by the size of
a cell, and brought on the screen as pixels; every product and sum of the code wraps.  Each
access asks whether it is inside its table; `none` is an access outside.
-/

namespace ZealBringup.Win

open Sweep

/-! ## Tasks -/

def TEXT_COLS : ℕ := 100

def TEXT_ROWS : ℕ := 75

def FONT_WIDTH : ℕ := 8

def FONT_HEIGHT : ℕ := 8

def BOOTSTRAP_WIN_MAX : ℕ := 64

/-- The characters `'TskS'`. -/
def TASK_SIGNATURE_VAL : ℕ := 0x536b7354

def DISPLAYf_SHOW : ℕ := 0

/-- What is read of a task, and the number it is given. -/
structure CTask where
  addr : ℕ
  taskSignature : ℕ
  nextTask : ℕ
  displayFlags : ℕ
  winLeft : Int64
  winRight : Int64
  winTop : Int64
  winBottom : Int64
  winZNum : ℕ

/-- The tables: the planes of cells and pixels, the bitmap, and the count for each window. -/
structure Planes where
  winZBuf : ℕ → ℕ
  pixelZBuf : ℕ → ℕ
  uncoveredBitmap : ℕ → ℕ
  uncoveredCells : ℕ → ℕ
  highestUncovered : ℕ

/-- The tasks by their addresses, the two that are no windows, and the tables. -/
structure State where
  tasks : ℕ → CTask
  sysTask : ℕ
  sysWinmgrTask : ℕ
  planes : Planes

/-- `TaskValidate`. -/
def State.taskValidate (s : State) (task : ℕ) : Bool :=
  decide (0 < task ∧ task < 2 ^ 31) && (s.tasks task).addr == task &&
    (s.tasks task).taskSignature == TASK_SIGNATURE_VAL

/-- The task is a window: it is shown, and it is neither the shell nor the window manager. -/
def State.isWindow (s : State) (task : ℕ) : Bool :=
  task != s.sysTask && task != s.sysWinmgrTask &&
    (s.tasks task).displayFlags &&& (1 <<< DISPLAYf_SHOW) != 0

def CTask.withZ (task : CTask) (z : ℕ) : CTask := { task with winZNum := z }

/-- `task->win_z_num = z;` -/
def State.setZNum (s : State) (task z : ℕ) : State :=
  { s with tasks := Function.update s.tasks task ((s.tasks task).withZ z) }

/-! ## Rectangles -/

/-- A number as it stands in an `I64`. -/
def wrapI64 (n : ℤ) : ℤ := n.bmod (2 ^ 64)

/-- Edges that belong to the rectangle. -/
structure Rect where
  left : ℤ
  right : ℤ
  top : ℤ
  bottom : ℤ

/-- `if (left < 0) left = 0;` -/
def clipLow (e : ℤ) : ℤ := if e < 0 then 0 else e

/-- `if (right >= n) right = n - 1;` -/
def clipHigh (n : ℕ) (e : ℤ) : ℤ := if n ≤ e then n - 1 else e

/-- The text cells of a window. -/
def CTask.cellRect (task : CTask) : Rect where
  left := clipLow task.winLeft.toInt
  right := clipHigh TEXT_COLS task.winRight.toInt
  top := clipLow task.winTop.toInt
  bottom := clipHigh TEXT_ROWS task.winBottom.toInt

/-- `e * FONT_WIDTH`, the first pixel of a cell. -/
def pixelLow (font : ℕ) (e : ℤ) : ℤ := clipLow (wrapI64 (e * font))

/-- `(e + 1) * FONT_WIDTH - 1`, the last pixel of a cell. -/
def pixelHigh (font size : ℕ) (e : ℤ) : ℤ :=
  clipHigh size (wrapI64 (wrapI64 (wrapI64 (e + 1) * font) - 1))

/-- The pixels of a rectangle of cells. -/
def Rect.pixelRect (r : Rect) : Rect where
  left := pixelLow FONT_WIDTH r.left
  right := pixelHigh FONT_WIDTH 800 r.right
  top := pixelLow FONT_HEIGHT r.top
  bottom := pixelHigh FONT_HEIGHT 600 r.bottom

/-- Where the loops over `y` and `x` get to, as indices into rows of `cols`. -/
def Rect.indices (r : Rect) (cols : ℕ) : List ℤ :=
  sweep (fun y => sweep (fun x => [y * cols + x]) r.left (r.right - r.left + 1).toNat) r.top
    (r.bottom - r.top + 1).toNat

/-! ## Painting -/

/-- A place in a table of `n` entries. -/
def slot (n : ℕ) (i : ℤ) : Option ℕ := if 0 ≤ i ∧ i < n then some i.toNat else none

/-- The window with the number `oldZ` loses a cell. -/
def dropCell (oldZ : ℕ) (cells : ℕ → ℕ) : Option (ℕ → ℕ) :=
  if oldZ ≠ 0 ∧ oldZ ≤ BOOTSTRAP_WIN_MAX then do
    let j ← slot BOOTSTRAP_WIN_MAX (oldZ - 1)
    pure (if cells j ≠ 0 then Function.update cells j (cells j - 1) else cells)
  else pure cells

/-- One cell gets a new owner. -/
def paintCell (z : ℕ) (p : Planes) (index : ℤ) : Option Planes := do
  let i ← slot (TEXT_COLS * TEXT_ROWS) index
  let cells ← dropCell (p.winZBuf i) p.uncoveredCells
  let k ← slot BOOTSTRAP_WIN_MAX (z - 1)
  pure { p with
    winZBuf := Function.update p.winZBuf i z
    uncoveredCells := Function.update cells k ((cells k + 1) % 2 ^ 32) }

/-- One pixel gets a new owner. -/
def paintPixel (z : ℕ) (p : Planes) (index : ℤ) : Option Planes := do
  let i ← slot (800 * 600) index
  pure { p with pixelZBuf := Function.update p.pixelZBuf i z }

/-- The two loops over the rectangle of a window. -/
def paintWindow (task : CTask) (z : ℕ) (p : Planes) : Option Planes := do
  let p ← (task.cellRect.indices TEXT_COLS).foldlM (paintCell z) p
  (task.cellRect.pixelRect.indices 800).foldlM (paintPixel z) p

/-- The body of the loop over the ring, with the count of the windows so far. -/
def visit (s : State) (zCount task : ℕ) : Option (State × ℕ) := do
  let s := s.setZNum task 0
  if s.isWindow task ∧ zCount < BOOTSTRAP_WIN_MAX then
    let z := zCount + 1
    let s := s.setZNum task z
    let p ← paintWindow (s.tasks task) z s.planes
    pure ({ s with planes := p }, z)
  else pure (s, zCount)

/-- The loop over the ring; `fuel` is what `visited` has left. -/
def visitRing (root : ℕ) : ℕ → State → ℕ → ℕ → Option (State × ℕ)
  | 0, s, zCount, _ => some (s, zCount)
  | fuel + 1, s, zCount, task => do
    if !s.taskValidate task then
      pure (s, zCount)
    else
      let (s, zCount) ← visit s zCount task
      let next := (s.tasks task).nextTask
      if next = 0 ∨ next = root then pure (s, zCount) else visitRing root fuel s zCount next

/-- One window gets its bit. -/
def markUncovered (p : Planes) (i : ℕ) : Option Planes := do
  let c ← slot BOOTSTRAP_WIN_MAX i
  if p.uncoveredCells c ≠ 0 then
    let k ← slot ((BOOTSTRAP_WIN_MAX + 16) / 16) ((i + 1) / 16 : ℕ)
    pure { p with
      uncoveredBitmap :=
        Function.update p.uncoveredBitmap k (p.uncoveredBitmap k ||| 1 <<< ((i + 1) % 16))
      highestUncovered := i + 1 }
  else pure p

/-- The tables when they have been cleared. -/
def Planes.blank : Planes where
  winZBuf _ := 0
  pixelZBuf _ := 0
  uncoveredBitmap _ := 0
  uncoveredCells _ := 0
  highestUncovered := 0

/-- The task the ring is entered at. -/
def State.root (s : State) : ℕ := if s.sysWinmgrTask = 0 then s.sysTask else s.sysWinmgrTask

/-- `BootstrapWinIsUncovered`. -/
def bootstrapWinIsUncovered (s : State) (task : ℕ) : Option Bool := do
  let z := (s.tasks task).winZNum
  if task = 0 ∨ z = 0 ∨ BOOTSTRAP_WIN_MAX < z then
    pure false
  else
    let k ← slot ((BOOTSTRAP_WIN_MAX + 16) / 16) (z / 16 : ℕ)
    pure (s.planes.uncoveredBitmap k &&& (1 <<< (z % 16)) != 0)

/-- The tasks of the list follow one another, and the last one leads to `root`. -/
def Linked (tasks : ℕ → CTask) (root : ℕ) : List ℕ → Prop
  | [] => False
  | [a] => (tasks a).nextTask = root
  | a :: b :: l => (tasks a).nextTask = b ∧ Linked tasks root (b :: l)

/-- The windows in the order of the ring. -/
def State.windows (s : State) (ring : List ℕ) : List ℕ := ring.filter s.isWindow

/-- The rectangle of the window contains the text cell. -/
def CTask.HasCell (task : CTask) (x y : ℤ) : Prop :=
  (task.winLeft.toInt ≤ x ∧ x ≤ task.winRight.toInt) ∧
    task.winTop.toInt ≤ y ∧ y ≤ task.winBottom.toInt

/-- The pixel is between the edges of the window, as they are after each was brought on the
screen from one side and multiplied by the size of a cell modulo `2 ^ 64`. -/
def CTask.ReachesPixel (task : CTask) (px py : ℤ) : Prop :=
  ((max task.winLeft.toInt 0 * 8).bmod (2 ^ 64) ≤ px ∧
    px ≤ (min task.winRight.toInt 99 * 8 + 7).bmod (2 ^ 64)) ∧
    (max task.winTop.toInt 0 * 8).bmod (2 ^ 64) ≤ py ∧
    py ≤ (min task.winBottom.toInt 74 * 8 + 7).bmod (2 ^ 64)

/-- A window has its place in the order of the ring as number, every other task zero. -/
def State.HasRank (s : State) (ring : List ℕ) (task z : ℕ) : Prop :=
  if s.isWindow task then ∃ k, (s.windows ring)[k]? = some task ∧ z = k + 1 else z = 0

/-- The window with the number `z` owns a text cell. -/
def Planes.Owns (p : Planes) (z : ℕ) : Prop :=
  0 < z ∧ ∃ i < TEXT_COLS * TEXT_ROWS, p.winZBuf i = z

/-- The state after the update is exact for the windows of the state before. -/
structure Exact (s : State) (ring : List ℕ) (s' : State) : Prop where
  zNum : ∀ task ∈ ring, s.HasRank ring task (s'.tasks task).winZNum
  cell : ∀ x < TEXT_COLS, ∀ y < TEXT_ROWS, Painter.Topmost (s.windows ring)
    (fun task => (s.tasks task).HasCell x y) (s'.planes.winZBuf (y * TEXT_COLS + x))
  pixel : ∀ px < 800, ∀ py < 600, s'.planes.pixelZBuf (py * 800 + px) =
    s'.planes.winZBuf (py / FONT_HEIGHT * TEXT_COLS + px / FONT_WIDTH)
  cells : ∀ z, 0 < z → z ≤ BOOTSTRAP_WIN_MAX → s'.planes.uncoveredCells (z - 1) =
    Painter.census (TEXT_COLS * TEXT_ROWS) s'.planes.winZBuf z
  bitmap : ∀ z < 16 * ((BOOTSTRAP_WIN_MAX + 16) / 16),
    (s'.planes.uncoveredBitmap (z / 16)).testBit (z % 16) ↔ s'.planes.Owns z
  uncovered : ∀ task ∈ ring, ∃ b, bootstrapWinIsUncovered s' task = some b ∧
    (b ↔ s'.planes.Owns (s'.tasks task).winZNum)
  highest : IsGreatest (insert 0 {z | s'.planes.Owns z}) s'.planes.highestUncovered

end ZealBringup.Win
