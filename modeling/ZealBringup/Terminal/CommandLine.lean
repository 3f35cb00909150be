import ZealBringup.Editor.Buffer

/-!
# The command line of the terminal

`command`, its length and position, the history and the overflow flag, as `GuiTerminal.ZC` keeps
them.  A read or a write outside of a buffer of 256 bytes is `none`.

* `commandKey` — one key.
* `complete` — the keys of a completion.
* `Reader.handle` — one message of `BootstrapGuiTerminalReadLine2`.
-/

namespace ZealBringup.Terminal

open Editor (window)

/-! ## The buffers -/

/-- `U8 command[256]`, and `history[256]` too. -/
abbrev Bytes := ℕ → UInt8

def load (b : Bytes) (i : ℕ) : Option UInt8 := if i < 256 then some (b i) else none

def store (b : Bytes) (i : ℕ) (v : UInt8) : Option Bytes :=
  if i < 256 then some (Function.update b i v) else none

/-- The string in a buffer. -/
def cstr (b : Bytes) : List UInt8 := (window b 256).takeWhile (· ≠ 0)

/-- The string of a literal, byte by byte. -/
def literal (text : List UInt8) (i : ℕ) : Option UInt8 := (text ++ [0])[i]?

/-- The loop of `BootstrapGuiTerminalBufferSet`. -/
def copyInto (b : Bytes) (value : ℕ → Option UInt8) : ℕ → Option Bytes
  | 0 => some b
  | n + 1 => do
    let b ← copyInto b value n
    store b n (← value n)

/-- `BootstrapGuiTerminalBufferSet`: the result, the bytes and their number. -/
def bufferSet (command : Bytes) (commandLen : ℕ) (value : ℕ → Option UInt8) (valueLen : ℕ) :
    Option (ℕ × Bytes × ℕ) :=
  if 255 < valueLen then some (0, command, commandLen)
  else do
    let command ← copyInto command value valueLen
    let command ← store command valueLen 0
    some (0x2a, command, valueLen)

/-- `BootstrapGuiTerminalHistorySave`. -/
def historySave (history : Bytes) (historyLen : ℕ) (command : ℕ → Option UInt8)
    (commandLen : ℕ) : Option (ℕ × Bytes × ℕ) :=
  if commandLen = 0 then some (0x2a, history, historyLen)
  else bufferSet history historyLen command commandLen

/-- `BootstrapGuiTerminalHistoryRecall`. -/
def historyRecall (command : Bytes) (commandLen : ℕ) (history : Bytes) (historyLen : ℕ) :
    Option (ℕ × Bytes × ℕ) :=
  if historyLen = 0 then some (0, command, commandLen)
  else bufferSet command commandLen (load history) historyLen

/-! ## Keys -/

abbrev SC_HOME : UInt8 := 0x47
abbrev SC_CURSOR_UP : UInt8 := 0x48
abbrev SC_CURSOR_LEFT : UInt8 := 0x4b
abbrev SC_CURSOR_RIGHT : UInt8 := 0x4d
abbrev SC_END : UInt8 := 0x4f
abbrev SC_CURSOR_DOWN : UInt8 := 0x50
abbrev SC_DELETE : UInt8 := 0x53
abbrev SC_F1 : UInt8 := 0x3b
abbrev SC_F10 : UInt8 := 0x44
abbrev SC_F11 : UInt8 := 0x57
abbrev SC_F12 : UInt8 := 0x58
/-- `1 << SCf_CTRL`. -/
abbrev SCF_CTRL : UInt64 := 0x400
abbrev GUI_MENU_ACTION_TAG : UInt64 := 0x475549

/-- `command`, `command_len` and `command_pos`. -/
structure Command where
  bytes : Bytes
  len : ℕ
  pos : ℕ

/-- `for (; n; i++, n--) command[i] = command[i + 1]`. -/
def shiftDown (b : Bytes) (i : ℕ) : ℕ → Option Bytes
  | 0 => some b
  | n + 1 => do
    let b ← store b i (← load b (i + 1))
    shiftDown b (i + 1) n

/-- `for (i = pos + n - 1; i >= pos; i--) command[i + 1] = command[i]`. -/
def shiftUp (b : Bytes) (pos : ℕ) : ℕ → Option Bytes
  | 0 => some b
  | n + 1 => do
    let b ← store b (pos + n + 1) (← load b (pos + n))
    shiftUp b pos n

def printable (ch : ℤ) : Bool := 32 ≤ ch && ch < 127

/-- `BootstrapGuiTerminalCommandKey`: the answer and the line. -/
def commandKey (c : Command) (ch : ℤ) (scan : UInt64) : Option (ℕ × Command) :=
  let code := scan.toUInt8
  if 255 < c.len ∨ c.len < c.pos then some (0, c)
  else if ch = 0 then
    if code = SC_CURSOR_LEFT then
      if c.pos ≠ 0 then some (1, { c with pos := c.pos - 1 }) else some (2, c)
    else if code = SC_CURSOR_RIGHT then
      if c.pos < c.len then some (1, { c with pos := c.pos + 1 }) else some (2, c)
    else if code = SC_HOME then
      if c.pos ≠ 0 then some (1, { c with pos := 0 }) else some (2, c)
    else if code = SC_END then
      if c.pos < c.len then some (1, { c with pos := c.len }) else some (2, c)
    else if code = SC_DELETE then
      if c.len ≤ c.pos then some (2, c)
      else do
        let bytes ← shiftDown c.bytes c.pos (c.len - c.pos)
        some (1, { c with bytes, len := c.len - 1 })
    else some (0, c)
  else if ch = 8 ∨ ch = 127 then
    if c.pos = 0 then some (2, c)
    else do
      let bytes ← shiftDown c.bytes (c.pos - 1) (c.len - (c.pos - 1))
      some (1, { bytes, len := c.len - 1, pos := c.pos - 1 })
  else if printable ch then
    if 255 ≤ c.len then some (2, c)
    else do
      let bytes ← shiftUp c.bytes c.pos (c.len - c.pos + 1)
      let bytes ← store bytes c.pos (UInt8.ofNat ch.toNat)
      some (1, { bytes, len := c.len + 1, pos := c.pos + 1 })
  else some (0, c)

/-! ## Completion -/

/-- What `AutoComplete(ON)` answers and leaves in `ac`. -/
structure AutoCompletion where
  on : Bool
  partialLen : ℕ
  /-- `fillin_matches[0..num_fillins)`, with the strings where there are any. -/
  fillins : List (Option (List UInt8))

/-- `SC_F1 <= code <= SC_F10` and the two keys after them. -/
def functionKey (code : UInt8) : Option ℕ :=
  if SC_F1 ≤ code ∧ code ≤ SC_F10 then some (code.toNat - SC_F1.toNat + 1)
  else if code = SC_F11 then some 11
  else if code = SC_F12 then some 12
  else none

/-- The characters of a completion, until one of them is not taken. -/
def fill (c : Command) : List UInt8 → Option Command
  | [] => some c
  | ch :: word =>
    if ch = 0 then some c
    else do
      let (answer, c) ← commandKey c ch.toNat 0
      if answer = 1 then fill c word else some c

/-- What is left to type of the word that a function key stands for. -/
def AutoCompletion.rest (ac : AutoCompletion) (n : ℕ) : List UInt8 :=
  match ac.fillins[n - 1]? with
  | some (some word) =>
    if ac.on ∧ n ≤ ac.fillins.length ∧ ac.partialLen < word.length then word.drop ac.partialLen
    else []
  | _ => []

/-- `BootstrapGuiTerminalComplete`: whether it took the key, and the line. -/
def complete (ac : AutoCompletion) (c : Command) (scan : UInt64) : Option (Bool × Command) :=
  if scan &&& SCF_CTRL = 0 then some (false, c)
  else
    match functionKey scan.toUInt8 with
    | none => some (false, c)
    | some n => do
      let c ← fill c (ac.rest n)
      some (true, c)

/-! ## Commands of the terminal itself -/

def blank (ch : UInt8) : Bool := ch = 32 || ch = 9

/-- `BootstrapGuiTerminalEditCommand`: the path, if the line asks for the editor. -/
def editCommand (command : List UInt8) : Option (List UInt8) :=
  let start := command.dropWhile blank
  if start.take 4 = [101, 100, 105, 116] ∧ (start.drop 4).head?.all blank then
    some ((start.drop 5).dropWhile blank)
  else none

/-- The test of `BootstrapGuiTerminalPaintCommand`. -/
def paintCommand (command : List UInt8) : Bool := command = [112, 97, 105, 110, 116]

def ascii (text : String) : List UInt8 := text.toList.map fun ch => ch.val.toUInt8

/-- `BootstrapGuiTerminalMenuSource`. -/
def menuSource (action : ℤ) : Option (List UInt8) :=
  if action = 20 then some (ascii "#include \"/Demo/Graphics/NetOfDots\"")
  else if action = 21 then some (ascii "#include \"/Demo/Graphics/Lines\"")
  else if action = 22 then
    some (ascii "BootstrapGuiTerminalRunLightProgram(\"/Demo/Graphics/Doodle\");")
  else if action = 23 then
    some (ascii "BootstrapGuiTerminalRunLightProgram(\"/Demo/Games/MassSpring\");")
  else if action = 24 then
    some (ascii "BootstrapGuiTerminalRunLightProgram(\"/Demo/Graphics/Life\");")
  else if action = 25 then
    some (ascii "BootstrapGuiTerminalRunLightProgram(\"/Apps/Logic/Run.ZC\");")
  else none

/-! ## The reader -/

/-- The variables of `BootstrapGuiTerminalReadLine2` and the history of the task. -/
structure Reader where
  command : Command
  overflow : Bool
  history : Bytes
  historyLen : ℕ
  continuation : Bool
  /-- The call has not returned. -/
  reading : Bool

inductive Message where
  /-- `MESSAGE_KEY_DOWN`. -/
  | keyDown (ch : ℤ) (sc : UInt64)
  /-- `MESSAGE_KEY_UP`. -/
  | keyUp (ch : ℤ) (sc : UInt64)
  | other

/-- What the rest of the system answers while a message is handled. -/
structure Around where
  /-- `bootstrap_gui_paint_active`. -/
  paintActive : Bool
  ac : AutoCompletion
  /-- `ZcGuiShellExec(command)` has output. -/
  shellOutput : Bool

/-- Who gets a line. -/
inductive Taker where
  | editor (path : List UInt8)
  | paint
  | shell
  | caller

/-- What a message comes to. -/
inductive Event where
  | none
  /-- The answer of `BootstrapGuiTerminalCommandKey`. -/
  | key (answer : ℕ)
  | completed
  | recalled
  | cleared
  /-- `Paint Demo stopped; drawing cleared.` -/
  | paintStopped
  | aborted
  /-- `input line exceeds 255 characters; chunk discarded`. -/
  | discarded
  | submitted (line : List UInt8) (taker : Taker)
  | menuAction
  | menuLine (line : List UInt8)

/-- `command_len = 0; command_pos = 0; command[0] = 0`. -/
def Command.empty (c : Command) : Option Command := do
  let bytes ← store c.bytes 0 0
  some { bytes, len := 0, pos := 0 }

/-- Who gets the line that Return ends: a continuation always goes to the caller. -/
def taker (line : List UInt8) (continuation shellOutput : Bool) : Taker :=
  if continuation then .caller
  else
    match editCommand line with
    | some path => .editor path
    | none =>
      if paintCommand line then .paint
      else if shellOutput then .shell
      else .caller

/-- Return. -/
def Reader.enter (s : Reader) (shellOutput : Bool) : Option (Event × Reader) :=
  if s.overflow then some (.discarded, { s with reading := false })
  else do
    let bytes ← store s.command.bytes s.command.len 0
    let s := { s with command := { s.command with bytes } }
    let line := cstr bytes
    if s.command.len = 0 ∧ ¬ s.continuation then
      -- an empty line is a no-op
      some (.none, { s with command := ← s.command.empty })
    else
      let (_, history, historyLen) ←
        if s.continuation then some (0, s.history, s.historyLen)
        else historySave s.history s.historyLen (load bytes) s.command.len
      let s := { s with history, historyLen }
      match taker line s.continuation shellOutput with
      | .caller => some (.submitted line .caller, { s with reading := false })
      | who => some (.submitted line who, { s with command := ← s.command.empty })

/-- A key of the line. -/
def Reader.lineKey (s : Reader) (ch : ℤ) (sc : UInt64) : Option (Event × Reader) := do
  let overflow := s.overflow || printable ch && s.command.len = 255
  let (answer, command) ← commandKey s.command ch sc
  some (.key answer, { s with command, overflow })

/-- The body of the loop, for one message. -/
def Reader.handle (s : Reader) (m : Message) (w : Around) : Option (Event × Reader) :=
  if !s.reading then some (.none, s)
  else
    match m with
    | .other => some (.none, s)
    | .keyUp ch sc =>
      if sc = GUI_MENU_ACTION_TAG then
        match menuSource ch with
        | some output => do
          let (_, history, historyLen) ←
            historySave s.history s.historyLen (literal output) output.length
          some (.menuLine output, { s with history, historyLen, reading := false })
        | none => do
          some (.menuAction, { s with command := ← s.command.empty, overflow := false })
      else some (.none, s)
    | .keyDown ch sc =>
      if ch = 13 ∨ ch = 10 then s.enter w.shellOutput
      else if ch = 27 then
        -- `BootstrapGuiTerminalPaintEscape`
        if w.paintActive then do
          some (.paintStopped, { s with command := ← s.command.empty, overflow := false })
        else some (.aborted, { s with reading := false })
      else if ch = 0 ∧ sc.toUInt8 = SC_CURSOR_UP ∧ s.historyLen ≠ 0 then do
        let (_, bytes, len) ← historyRecall s.command.bytes s.command.len s.history s.historyLen
        some (.recalled, { s with command := { bytes, len, pos := len } })
      else if ch = 0 ∧ sc.toUInt8 = SC_CURSOR_DOWN then do
        some (.cleared, { s with command := ← s.command.empty })
      else if ch = 0 then do
        let (took, command) ← complete w.ac s.command sc
        if took then some (.completed, { s with command }) else s.lineKey ch sc
      else s.lineKey ch sc

/-- A call of `BootstrapGuiTerminalReadLine2`, with what its array holds. -/
def Reader.call (s : Reader) (garbage : Bytes) (continuation : Bool) : Option Reader := do
  let bytes ← store garbage 0 0
  some { s with
    command := { bytes, len := 0, pos := 0 }, overflow := false, continuation, reading := true }

/-- The terminal when it is registered. -/
def registered : Reader where
  command := { bytes := fun _ => 0, len := 0, pos := 0 }
  overflow := false
  history := fun _ => 0
  historyLen := 0
  continuation := false
  reading := false

end ZealBringup.Terminal
