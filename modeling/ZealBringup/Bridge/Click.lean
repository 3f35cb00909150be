import Mathlib.Data.Int.Bitwise
import ZealBringup.Lib.Gestures

/-!
# Clicks of the mouse

`BootstrapWinMouseClickTimer`, `BootstrapWinMouseClickInput` and the edges of
`BootstrapCtrlInputSampleAt`, for a focused task that stays valid.

* `Click.timer`, `Click.input` — what a sample does to the state of one button.
* `bootstrapCtrlInputSampleAt` — one sample.
-/

namespace ZealBringup.Bridge

open Gestures (Report)

inductive MouseButton where
  | left
  | right
  deriving DecidableEq

/-- The bit of a button in a sample. -/
def MouseButton.mask : MouseButton → UInt8
  | .left => 1
  | .right => 2

def held (buttons : UInt8) (b : MouseButton) : Bool := buttons &&& b.mask != 0

/-- `BOOTSTRAP_MOUSE_DBL_TIME_NS`. -/
def mouseDblTimeNs : ℤ := 175000000

/-- A value of `I64`. -/
def toI64 (n : ℤ) : ℤ := n.bmod (2 ^ 64)

/-- `BOOTSTRAP_MOUSE_CLICK_PENDING` and the other two. -/
inductive ClickResult where
  | pending
  | single
  | double

/-- `bootstrap_left_click_*` or `bootstrap_right_click_*`. -/
structure Click where
  deadline : ℤ
  x : ℤ
  y : ℤ
  double : Bool
  downSent : Bool
  result : ClickResult

/-- A message of a button, `MESSAGE_MS_L_DOWN` to `MESSAGE_MS_R_D_UP`, with its place. -/
structure ButtonMessage where
  button : MouseButton
  report : Report
  x : ℤ
  y : ℤ

/-- One sample: the buttons, the place of the pointer on the screen, and the time. -/
structure TabletSample where
  buttons : UInt8
  x : ℤ
  y : ℤ
  nowNs : ℤ

namespace Click

/-- The half of `BootstrapWinMouseClickTimer` for one button: what is queued, with its place on the
screen, and the state. -/
def timer (c : Click) (down : Bool) (p : TabletSample) : List (Report × ℤ × ℤ) × Click :=
  if c.deadline ≠ 0 ∧ c.deadline < p.nowNs then
    let downs :=
      if !c.downSent then
        [(⟨c.double, true⟩, if c.double then (p.x, p.y) else (c.x, c.y))]
      else []
    let c := { c with downSent := true }
    if !down then
      (downs ++ [(⟨c.double, false⟩, p.x, p.y)], { c with
        result := if c.double then .double else .single
        deadline := 0
        double := false
        downSent := false })
    else (downs, c)
  else ([], c)

/-- `BootstrapWinMouseClickInput` for one button; `immediate` is the bit of `win_inhibit`. -/
def input (c : Click) (immediate down : Bool) (p : TabletSample) :
    List (Report × ℤ × ℤ) × Click :=
  if c.deadline = 0 ∧ immediate then
    ([(⟨false, down⟩, p.x, p.y)], { c with result := if down then .pending else .single })
  else if !down then ([], c)
  else if c.deadline = 0 then
    ([], { c with
      deadline := toI64 (p.nowNs + mouseDblTimeNs)
      x := p.x
      y := p.y
      double := false
      downSent := false
      result := .pending })
  else
    ([], { c with
      deadline := p.nowNs, x := p.x, y := p.y, double := true, downSent := false
      result := .pending })

end Click

/-- What the window manager does with a sample. -/
structure Routing where
  /-- `gr.pan_text`, `pix_left`, `pix_top` and the scroll of the focused task, added up. -/
  originX : ℤ
  originY : ℤ
  /-- A control, a title button, a drag or a document of the clicked window takes a left press. -/
  leftTaken : Bool
  /-- `bootstrap_mouse_drag_task`. -/
  dragging : Bool
  /-- `bootstrap_title_button_task`. -/
  titleButton : Bool
  /-- `bootstrap_doc_mouse_task`. -/
  docPress : Bool

/-- The globals of the mouse, and the messages of buttons that are queued. -/
structure Mouse where
  sampled : Bool
  lastButtons : UInt8
  clicks : MouseButton → Click
  queue : List ButtonMessage

namespace Mouse

/-- `BootstrapWinQueueMouseButton` for each message. -/
def post (s : Mouse) (b : MouseButton) (w : Routing) (out : List (Report × ℤ × ℤ) × Click) : Mouse :=
  { s with
    clicks := Function.update s.clicks b out.2
    queue := s.queue ++ out.1.map fun m =>
      ⟨b, m.1, m.2.1 - w.originX, m.2.2 - w.originY⟩ }

/-- `BootstrapWinMouseClickTimer`. -/
def clickTimer (s : Mouse) (p : TabletSample) (w : Routing) : Mouse :=
  let s := s.post .left w ((s.clicks .left).timer (held p.buttons .left) p)
  s.post .right w ((s.clicks .right).timer (held p.buttons .right) p)

/-- `BootstrapWinMouseClickInput`. -/
def clickInput (s : Mouse) (immediate : MouseButton → Bool) (b : MouseButton) (down : Bool)
    (p : TabletSample) (w : Routing) : Mouse :=
  s.post b w ((s.clicks b).input (immediate b) down p)

/-- `BootstrapCtrlInputSampleAt`, as far as the messages of the buttons go. -/
def bootstrapCtrlInputSampleAt (immediate : MouseButton → Bool) (s : Mouse) (p : TabletSample)
    (w : Routing) : Mouse :=
  if !s.sampled then { s with lastButtons := p.buttons, sampled := true }
  else
    let last := s.lastButtons
    let s := s.clickTimer p w
    let s :=
      if !held p.buttons .left && held last .left then s.clickInput immediate .left false p w else s
    let s :=
      if !held p.buttons .right && held last .right then s.clickInput immediate .right false p w
      else s
    let leftPress := held p.buttons .left && !held last .left
    let s := if leftPress then s.clickInput immediate .left true p w else s
    -- every return stores the buttons
    let s := { s with lastButtons := p.buttons }
    if leftPress && w.leftTaken then s
    else if w.dragging || w.titleButton || w.docPress then s
    else if held p.buttons .right && !held last .right then
      s.clickInput immediate .right true p w
    else s

/-- The globals before the first sample. -/
def fresh : Mouse where
  sampled := false
  lastButtons := 0
  clicks _ := { deadline := 0, x := 0, y := 0, double := false, downSent := false, result := .pending }
  queue := []

/-- The reports of a button in the queue. -/
def reports (s : Mouse) (b : MouseButton) : List Report :=
  (s.queue.filter fun m => m.button = b).map ButtonMessage.report

end Mouse

end ZealBringup.Bridge
