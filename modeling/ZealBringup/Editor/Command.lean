import ZealBringup.Editor.Buffer

/-!
# The commands of the source editor

What a line typed at the `edit>` prompt does, and how the editor is opened and the text saved.

* `zeditStart` — `zedit path/to/File.ZC`.
* `zeditHandleCommand` — one line at the prompt.
* `ShellLine` — what the shell hands over as a line.
-/

namespace ZealBringup.Editor

open Store

/-! ## Arguments and reports -/

/-- The loop of `zedit_number`. -/
def zeditDigits : ℕ → List UInt8 → Option (ℕ × List UInt8)
  | value, [] => some (value, [])
  | value, c :: p =>
      if 48 ≤ c ∧ c ≤ 57 then
        let digit := c.toNat - 48
        if value > (2 ^ 32 - 1 - digit) / 10 then none else zeditDigits (value * 10 + digit) p
      else some (value, c :: p)

/-- `zedit_number`: a line number or a count, and what follows it. -/
def zeditNumber (input : List UInt8) : Option (ℕ × List UInt8) :=
  if 48 ≤ input.getD 0 0 ∧ input.getD 0 0 ≤ 57 then
    match zeditDigits 0 input with
    | none => none
    | some (value, p) => if value = 0 then none else some (value, p)
  else none

/-- `while (*p == ' ') p++`. -/
def skipSpaces : List UInt8 → List UInt8
  | [] => []
  | c :: p => if c = 32 then skipSpaces p else c :: p

/-- What a command prints. -/
inductive Report where
  | help
  | unsaved
  | discarded
  | closed
  | unchanged
  | emptySource
  | full
  | unavailable
  | saveFailed
  | saved (name : List UInt8) (bytes : ℕ)
  | empty
  /-- The lines of `p`: number, bytes, and whether `...` stands for more. -/
  | printed (lines : List (ℕ × List UInt8 × Bool))
  | cursorLine (line : ℕ)
  | cursorOutOfRange
  | exceeds
  | edited (line : ℕ)
  | inserted (line : ℕ)
  | deletedSelected
  | added (line : ℕ)
  | lineOutOfRange
  | deleted (line : ℕ)
  | changed (line : ℕ)
deriving DecidableEq, Repr

/-- The messages that are errors: the command is refused. -/
def Report.isError : Report → Bool
  | help | unsaved | emptySource | full | unavailable | saveFailed => true
  | empty | cursorOutOfRange | exceeds | lineOutOfRange => true
  | _ => false

/-- The bytes of a line that `p` shows, at most 160, and whether it has more. -/
def zeditShown (z : ZEdit) (start stop : ℕ) : List UInt8 × Bool :=
  let body := ((window z.text stop).drop start).takeWhile (· != 10)
  (body.take 160, decide (body.length > 160))

/-- The loop of `zedit_print`, for at most so many lines from line `n` on. -/
def zeditPrintLoop (z : ZEdit) (lines : ℕ) : ℕ → ℕ → List (ℕ × List UInt8 × Bool)
  | 0, _ => []
  | count + 1, n =>
      if n ≤ lines then
        match zeditBounds z n with
        | none => []
        | some (start, stop) => (n, zeditShown z start stop) :: zeditPrintLoop z lines count (n + 1)
      else []

/-- `zedit_print`. -/
def zeditPrint (z : ZEdit) (first count : ℕ) : Report :=
  let lines := zeditLines z
  if lines = 0 then .empty
  else if first = 0 ∨ first > lines then .lineOutOfRange
  else .printed (zeditPrintLoop z lines (if count > 50 then 50 else count) first)

/-! ## Opening and saving -/

/-- What `zedit_start` prints. -/
inductive Opening where
  | badName
  | unavailable
  | damaged
  | unreadable
  | containsNul
  | opened (lines bytes : ℕ)
  | new (lines bytes : ℕ)
deriving DecidableEq, Repr

/-- The fields that `zedit_start` sets once it has the text. -/
def ZEdit.opening (z : ZEdit) (name : List UInt8) (text : ℕ → UInt8) (length : ℕ)
    (existed : Bool) : ZEdit :=
  { z with
    name := name
    text := text
    length := length
    active := true
    dirty := false
    existed := existed
    viewFirst := 1
    viewCount := 0
    cursorLine := 1 }

/-- `zedit_start`. There is no editor where it returns early: `active` stays 0, and the bytes that
a failed read leaves in the closed buffer are not followed. -/
def zeditStart (g : Grid) (z : ZEdit) (m : Machine) (name : List UInt8) :
    Opening × Option ZEdit × Machine :=
  if (zssNameOk name).isNone then (.badName, none, m)
  else
    match zssFind m (some name) with
    | (found, m) =>
        if found.status = -2 then (.unavailable, none, m)
        else if found.status = -1 then (.damaged, none, m)
        else if found.status = 1 then
          match found.out with
          | none => (.damaged, none, m)
          | some entry =>
              let (result, bytes) := zssRead m entry (zssMaxFile + 1)
              let text := Function.update (zeditStore z.text 0 bytes) entry.length 0
              if result ≠ 0 then (.unreadable, none, m)
              else if (0 : UInt8) ∈ window text entry.length then (.containsNul, none, m)
              else
                let z := z.opening name text entry.length true
                (.opened (zeditLines z) z.length, some (zeditRender g z), m)
        else
          let z := z.opening name (Function.update z.text 0 0) 0 false
          (.new (zeditLines z) z.length, some (zeditRender g z), m)

/-- `zedit_save`: whether it returns 0, and what it prints. -/
def zeditSave (z : ZEdit) (m : Machine) : Bool × Report × ZEdit × Machine :=
  if z.dirty = false ∧ z.existed = true then (true, .unchanged, z, m)
  else if z.length = 0 then (false, .emptySource, z, m)
  else
    let (result, m) := zssPut m z.name z.content
    if result ≠ 0 then
      (false, if result = -3 then .full else if result = -2 then .unavailable else .saveFailed, z, m)
    else (true, .saved z.name z.length, { z with dirty := false, existed := true }, m)

/-! ## Commands -/

/-- `j`, `k`, `[`, `]`, `g` and `G`: where each moves the cursor to. -/
def zeditMove (g : Grid) (z : ZEdit) (lines : ℕ) (key : UInt8) : ℕ :=
  if key = 106 then if z.cursorLine < lines then z.cursorLine + 1 else z.cursorLine
  else if key = 107 then if z.cursorLine > 1 then z.cursorLine - 1 else z.cursorLine
  else if key = 91 then
    let step := zeditPageRows g
    if z.cursorLine > step then z.cursorLine - step else 1
  else if key = 93 then
    let step := zeditPageRows g
    if lines ≠ 0 then
      let remaining := (lines + 2 ^ 32 - z.cursorLine) % 2 ^ 32
      (z.cursorLine + if step < remaining then step else remaining) % 2 ^ 32
    else z.cursorLine
  else if key = 103 then 1
  else if lines ≠ 0 then lines
  else z.cursorLine

/-- `if (cursor_line > lines && lines) cursor_line = lines; if (!lines) cursor_line = 1`. -/
def zeditClamp (cursor lines : ℕ) : ℕ :=
  if lines = 0 then 1 else if cursor > lines then lines else cursor

/-- The branch of the moves. -/
def zeditNavigate (g : Grid) (z : ZEdit) (key : UInt8) : Report × ZEdit :=
  let lines := zeditLines z
  let cursor := zeditClamp (zeditMove g z lines key) lines
  (.cursorLine cursor, zeditRevealCursor g { z with cursorLine := cursor })

/-- The end of the branch of `p`, with its two numbers. -/
def zeditView (z : ZEdit) (first count : ℕ) : Report × ZEdit :=
  (zeditPrint z first count,
    { z with
      viewFirst := first
      viewCount := count
      cursorLine := if first ≤ zeditLines z then first else z.cursorLine })

/-- The branch of `p`, with what follows the letter. -/
def zeditP (z : ZEdit) (args : List UInt8) : Report × ZEdit :=
  if args = [] then zeditView z 1 20
  else
    match zeditNumber (skipSpaces args) with
    | none => (.help, z)
    | some (first, p) =>
        if p.getD 0 0 = 32 then
          match zeditNumber (skipSpaces p) with
          | none => (.help, z)
          | some (count, p) => if p ≠ [] then (.help, z) else zeditView z first count
        else if p ≠ [] then (.help, z)
        else zeditView z first 20

/-- The branch of `e`. -/
def zeditE (z : ZEdit) (body : List UInt8) : Report × ZEdit :=
  match zeditBounds z z.cursorLine with
  | none => (.cursorOutOfRange, z)
  | some (start, stop) =>
      match zeditSplice z start stop body false with
      | none => (.exceeds, z)
      | some z => (.edited z.cursorLine, z)

/-- Where `n` and `i` insert: before the line, or at the end of the text. -/
def zeditInsertAt (z : ZEdit) (number : ℕ) : Option ℕ :=
  if number = zeditLines z + 1 then some z.length
  else (zeditBounds z number).map Prod.fst

/-- The branch of `n`. -/
def zeditN (z : ZEdit) (body : List UInt8) : Report × ZEdit :=
  match zeditInsertAt z z.cursorLine with
  | none => (.cursorOutOfRange, z)
  | some start =>
      match zeditSplice z start start body (decide (z.cursorLine = zeditLines z + 1)) with
      | none => (.exceeds, z)
      | some z => (.inserted z.cursorLine, z)

/-- The branch of `x`. -/
def zeditX (z : ZEdit) : Report × ZEdit :=
  match zeditDeleteLine z z.cursorLine with
  | none => (.cursorOutOfRange, z)
  | some z => (.deletedSelected, { z with cursorLine := zeditClamp z.cursorLine (zeditLines z) })

/-- The branch of `a`. -/
def zeditA (z : ZEdit) (body : List UInt8) : Report × ZEdit :=
  let next := zeditLines z + 1
  match zeditSplice z z.length z.length body true with
  | none => (.exceeds, z)
  | some z => (.added next, z)

/-- The branch of `d`, with the number and what follows it. -/
def zeditD (z : ZEdit) (number : ℕ) (p : List UInt8) : Report × ZEdit :=
  if p ≠ [] then (.lineOutOfRange, z)
  else
    match zeditDeleteLine z number with
    | none => (.lineOutOfRange, z)
    | some z =>
        let cursor := if number < z.cursorLine then z.cursorLine - 1 else z.cursorLine
        (.deleted number, { z with cursorLine := zeditClamp cursor (zeditLines z) })

/-- The branch of `i`, with the number and the text. -/
def zeditI (z : ZEdit) (number : ℕ) (body : List UInt8) : Report × ZEdit :=
  match zeditInsertAt z number with
  | none => (.lineOutOfRange, z)
  | some start =>
      match zeditSplice z start start body (decide (number = zeditLines z + 1)) with
      | none => (.exceeds, z)
      | some z =>
          (.inserted number,
            if number ≤ z.cursorLine then { z with cursorLine := z.cursorLine + 1 } else z)

/-- The branch of `c`, with the number and the text. -/
def zeditC (z : ZEdit) (number : ℕ) (body : List UInt8) : Report × ZEdit :=
  match zeditBounds z number with
  | none => (.lineOutOfRange, z)
  | some (start, stop) =>
      match zeditSplice z start stop body false with
      | none => (.exceeds, z)
      | some z => (.changed number, z)

/-- The branch of `i`, `c` and `d`, with what follows the letter and its blank. -/
def zeditNumbered (z : ZEdit) (command : UInt8) (args : List UInt8) : Report × ZEdit :=
  match zeditNumber args with
  | none => (.help, z)
  | some (number, p) =>
      if command = 100 then zeditD z number p
      else if p.getD 0 0 ≠ 32 then (.help, z)
      else if command = 105 then zeditI z number (p.drop 1)
      else zeditC z number (p.drop 1)

/-- The branches of `zedit_handle_command` from `p` on, which leave the disk alone. -/
def zeditEditing (g : Grid) (z : ZEdit) (line : List UInt8) : Report × ZEdit :=
  if line.getD 0 0 = 112 ∧ (line.getD 1 0 = 0 ∨ line.getD 1 0 = 32) then zeditP z (line.drop 1)
  else if line = [106] ∨ line = [107] ∨ line = [91] ∨ line = [93] ∨ line = [103] ∨ line = [71] then
    zeditNavigate g z (line.getD 0 0)
  else if line.getD 0 0 = 101 ∧ line.getD 1 0 = 32 then zeditE z (line.drop 2)
  else if line.getD 0 0 = 110 ∧ line.getD 1 0 = 32 then zeditN z (line.drop 2)
  else if line = [120] then zeditX z
  else if line.getD 0 0 = 97 ∧ (line.getD 1 0 = 0 ∨ line.getD 1 0 = 32) then
    zeditA z (line.drop 2)
  else if (line.getD 0 0 = 105 ∨ line.getD 0 0 = 99 ∨ line.getD 0 0 = 100) ∧ line.getD 1 0 = 32 then
    zeditNumbered z (line.getD 0 0) (line.drop 2)
  else (.help, z)

/-- `zedit_handle_command`. -/
def zeditHandleCommand (g : Grid) (z : ZEdit) (m : Machine) (line : List UInt8) :
    Report × ZEdit × Machine :=
  if line = [] ∨ line = [104] ∨ line = [104, 101, 108, 112] then (.help, z, m)
  else if line = [113] ∨ line = [113, 33] then
    if z.dirty = true ∧ line.getD 1 0 ≠ 33 then (.unsaved, z, m)
    else (if z.dirty = true then .discarded else .closed, { z with active := false }, m)
  else if line = [119] ∨ line = [119, 113] then
    match zeditSave z m with
    | (ok, report, z, m) =>
        (report, if ok = true ∧ line.getD 1 0 = 113 then { z with active := false } else z, m)
  else
    let (report, z) := zeditEditing g z line
    (report, z, m)

/-- `zedit_handle`. -/
def zeditHandle (g : Grid) (z : ZEdit) (m : Machine) (line : List UInt8) :
    Report × ZEdit × Machine :=
  match zeditHandleCommand g z m line with
  | (report, z, m) => (report, if z.active = true then zeditRender g z else z, m)

/-! ## Sessions -/

/-- A line from the shell, which keeps the printable bytes and has room for 511 of them. -/
structure ShellLine where
  chars : List UInt8
  printable : ∀ c ∈ chars, 32 ≤ c ∧ c < 127
  short : chars.length < 512

/-- The lines typed while the editor is open: what they make of the buffer and the disk. After it
closes, the shell takes the lines. -/
def zeditRun (g : Grid) : ZEdit → Machine → List ShellLine → ZEdit × Machine
  | z, m, [] => (z, m)
  | z, m, line :: lines =>
      if z.active = true then
        match zeditHandle g z m line.chars with
        | (_, z, m) => zeditRun g z m lines
      else (z, m)

end ZealBringup.Editor
