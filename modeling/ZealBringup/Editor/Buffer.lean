import Mathlib.Logic.Function.Basic
import ZealBringup.Store.Guest

/-!
# The buffer of the source editor

`g_zedit` and the functions that read and write its text, as `zc_source_editor.h` has them.

* `ZEdit` — the buffer, the view and the selected line.
* `zeditLines`, `zeditBounds` — how many lines there are, and where one of them is.
* `zeditSplice`, `zeditDeleteLine` — the two edits in place.
-/

namespace ZealBringup.Editor

open Store

/-- The framebuffer's text grid: `g_fb_rows` and `g_fb_cols`. -/
structure Grid where
  rows : ℕ
  cols : ℕ

/-- `g_zedit`. -/
structure ZEdit where
  name : List UInt8
  length : ℕ
  viewFirst : ℕ
  viewCount : ℕ
  cursorLine : ℕ
  active : Bool
  dirty : Bool
  existed : Bool
  text : ℕ → UInt8

/-- `ZEAL_TEXT_MAX_ROWS`, and `ZEAL_TEXT_MAX_COLS` too. -/
def zealTextMax : ℕ := 512

/-- The bytes `text[0..length)`. -/
def window (text : ℕ → UInt8) (length : ℕ) : List UInt8 := (List.range length).map text

/-- What the buffer holds. -/
def ZEdit.content (z : ZEdit) : List UInt8 := window z.text z.length

/-! ## Lines -/

/-- The newlines among the first bytes. -/
def zeditNewlines (text : ℕ → UInt8) : ℕ → ℕ
  | 0 => 0
  | i + 1 => zeditNewlines text i + if text i = 10 then 1 else 0

/-- `zedit_lines`. -/
def zeditLines (z : ZEdit) : ℕ :=
  zeditNewlines z.text z.length +
    if z.length ≠ 0 ∧ z.text (z.length - 1) ≠ 10 then 1 else 0

/-- `while (last < length && text[last] != '\n') last++`, with so many bytes to go. -/
def zeditLineEnd (text : ℕ → UInt8) : ℕ → ℕ → ℕ
  | last, 0 => last
  | last, left + 1 => if text last ≠ 10 then zeditLineEnd text (last + 1) left else last

/-- The loop of `zedit_bounds`. Every round moves `at` forward, so `length` rounds are enough. -/
def zeditBoundsLoop (z : ZEdit) (number : ℕ) : ℕ → ℕ → ℕ → Option (ℕ × ℕ)
  | 0, _, _ => none
  | rounds + 1, current, start =>
      if start < z.length then
        let last := zeditLineEnd z.text start (z.length - start)
        let last := if last < z.length then last + 1 else last
        if current = number then some (start, last)
        else zeditBoundsLoop z number rounds (current + 1) last
      else none

/-- `zedit_bounds`: where the line begins and where the next one does. -/
def zeditBounds (z : ZEdit) (number : ℕ) : Option (ℕ × ℕ) :=
  if number = 0 then none else zeditBoundsLoop z number z.length 1 0

/-! ## The view -/

/-- `zedit_page_rows`. -/
def zeditPageRows (g : Grid) : ℕ :=
  let rows := if g.rows < zealTextMax then g.rows else zealTextMax
  if rows > 5 then rows - 5 else 1

/-- `zedit_reveal_cursor`. -/
def zeditRevealCursor (g : Grid) (z : ZEdit) : ZEdit :=
  let capacity := zeditPageRows g
  let visible := if z.viewCount ≠ 0 then z.viewCount else capacity
  let visible := if visible > capacity then capacity else visible
  if z.cursorLine < z.viewFirst then { z with viewFirst := z.cursorLine }
  else if visible ≠ 0 ∧ z.cursorLine ≥ (z.viewFirst + visible) % 2 ^ 32 then
    { z with viewFirst := (z.cursorLine + 2 ^ 32 - visible + 1) % 2 ^ 32 }
  else z

/-- `zedit_render`. -/
def zeditRender (g : Grid) (z : ZEdit) : ZEdit :=
  let rows := if g.rows < zealTextMax then g.rows else zealTextMax
  let cols := if g.cols < zealTextMax then g.cols else zealTextMax
  if z.active = false ∨ rows < 8 ∨ cols = 0 then z
  else
    let capacity := rows - 7
    let lines := zeditLines z
    let z := if z.viewFirst = 0 then { z with viewFirst := 1 } else z
    let z := if z.viewFirst > lines ∧ lines ≠ 0 then { z with viewFirst := lines } else z
    let z := if z.viewCount > capacity then { z with viewCount := capacity } else z
    if z.viewCount = 0 then { z with viewCount := capacity } else z

/-! ## Edits in place -/

/-- `for (i = length + 1; i > end; i--) text[destination + i - end - 1] = text[i - 1]`: the last
byte first, from `end` to `destination`. -/
def zeditMoveUp (text : ℕ → UInt8) (source destination : ℕ) : ℕ → ℕ → UInt8
  | 0 => text
  | n + 1 =>
      zeditMoveUp (Function.update text (destination + n) (text (source + n))) source destination n

/-- `for (i = end; i <= length; i++) text[destination + i - end] = text[i]`: the first byte first. -/
def zeditMoveDown (text : ℕ → UInt8) (source destination : ℕ) : ℕ → ℕ → UInt8
  | 0 => text
  | n + 1 =>
      zeditMoveDown (Function.update text destination (text source)) (source + 1)
        (destination + 1) n

/-- `text[at++] = …` for each byte. -/
def zeditStore (text : ℕ → UInt8) : ℕ → List UInt8 → ℕ → UInt8
  | _, [] => text
  | start, b :: bytes => zeditStore (Function.update text start b) (start + 1) bytes

/-- `prefix` of `zedit_splice`: the newline that an open last line still needs. -/
def zeditPrefix (z : ZEdit) (appendEof : Bool) : List UInt8 :=
  if appendEof = true ∧ z.length ≠ 0 ∧ z.text (z.length - 1) ≠ 10 then [10] else []

/-- `zedit_splice`: one line in the place of `[start, end)`; `none` where it returns -1. -/
def zeditSplice (z : ZEdit) (start stop : ℕ) (body : List UInt8) (appendEof : Bool) : Option ZEdit :=
  let sep := zeditPrefix z appendEof
  let inserted := sep.length + body.length + 1
  let removed := stop - start
  if inserted > zssMaxFile ∨ z.length - removed > zssMaxFile - inserted then none
  else
    let destination := start + inserted
    let text :=
      if destination > stop then zeditMoveUp z.text stop destination (z.length + 1 - stop)
      else zeditMoveDown z.text stop destination (z.length + 1 - stop)
    some { z with
      text := zeditStore text start (sep ++ body ++ [10])
      length := z.length - removed + inserted
      dirty := true }

/-- `zedit_delete_line`; `none` where it returns -1. -/
def zeditDeleteLine (z : ZEdit) (number : ℕ) : Option ZEdit :=
  match zeditBounds z number with
  | none => none
  | some (start, stop) =>
      some { z with
        text := zeditMoveDown z.text stop start (z.length + 1 - stop)
        length := z.length - (stop - start)
        dirty := true }

end ZealBringup.Editor
