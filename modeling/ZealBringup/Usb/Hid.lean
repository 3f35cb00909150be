import Mathlib.Algebra.Group.Int.Defs
import Mathlib.Algebra.Group.Nat.Defs
import Mathlib.Data.Int.Notation
import Mathlib.Data.List.Range
import Mathlib.Tactic.Common

/-!
# Report descriptors of pointers

`usb_hid_pointer_parse` and `usb_hid_pointer_read` of `usb_hid.h`.

* `HidItems` — the global and local state of the items of a descriptor.
* `HidField` — a field of an input item, with the usage that the parser gives it.
* `hidLoop` — the loop over the items, for any use of the fields.
* `usbHidPointerParse` — the parser, which is the loop with `hidField`.
* `usbHidPointerRead` — the reader of a report; a read outside of the report is an outcome.
-/

namespace ZealBringup.Usb

/-! ## Descriptors -/

/-- `struct usb_hid_axis`. -/
structure HidAxis where
  off : ℕ
  bits : ℕ
  min : ℤ
  max : ℤ
  deriving DecidableEq

/-- `struct usb_hid_pointer`. -/
structure HidPointer where
  x : HidAxis
  y : HidAxis
  wheel : HidAxis
  buttonsOff : ℕ
  buttonsCount : ℕ
  reportBits : ℕ
  reportId : ℕ
  absolute : Bool
  deriving DecidableEq

/-- The locals of the parser but for its result and `relative`. -/
structure HidItems where
  page : ℕ := 0
  size : ℕ := 0
  count : ℕ := 0
  bit : ℕ := 0
  usages : List ℕ := []
  currentReportId : ℕ := 0
  inputReportId : ℕ := 0
  usageMin : ℕ := 0
  usageMax : ℕ := 0
  haveRange : Bool := false
  inputReportSelected : Bool := false
  min : ℤ := 0
  max : ℤ := 0
  deriving DecidableEq

/-- A field of an input item: its place, its usage, the limits and the flags of the item. -/
structure HidField where
  off : ℕ
  size : ℕ
  usage : ℕ
  min : ℤ
  max : ℤ
  flags : ℕ
  deriving DecidableEq

/-- The value of the bytes of an item, the low one first. -/
def hidValue : List UInt8 → ℕ
  | [] => 0
  | b :: data => b.toNat ||| hidValue data <<< 8

/-- `(int32_t)(v << (32 - bytes * 8)) >> (32 - bytes * 8)`: the low bytes with their sign. -/
def hidExtend (bytes v : ℕ) : ℤ :=
  (v + 2 ^ (8 * bytes - 1) : ℕ) % 2 ^ (8 * bytes) - 2 ^ (8 * bytes - 1)

/-- An item that is no input item. -/
def hidItem (tag bytes v : ℕ) (st : HidItems) : Option HidItems :=
  if tag = 0x84 then
    if bytes ≠ 1 ∨ v = 0 ∨ v > 255 then none else some { st with currentReportId := v }
  else if tag = 0xa4 ∨ tag = 0xb4 then none
  else if tag = 0x04 then some { st with page := v }
  else if tag = 0x14 then some { st with min := if bytes ≠ 0 then hidExtend bytes v else 0 }
  else if tag = 0x24 then
    some { st with max := if st.min < 0 ∧ bytes ≠ 0 then hidExtend bytes v else hidExtend 4 v }
  else if tag = 0x74 then some { st with size := v }
  else if tag = 0x94 then some { st with count := v }
  else if tag = 0x08 then
    if st.usages.length = 32 then none
    else
      let usage := if bytes = 4 then v else (st.page <<< 16) % 2 ^ 32 ||| v
      some { st with usages := st.usages ++ [usage] }
  else if tag = 0x18 then some { st with usageMin := v, haveRange := true }
  else if tag = 0x28 then some { st with usageMax := v }
  else some st

/-- The usage of the field `i` of an input item. -/
def hidUsage (st : HidItems) (i : ℕ) : ℕ :=
  if i < st.usages.length then st.usages.getD i 0
  else if st.haveRange ∧ (st.usageMin + i) % 2 ^ 32 ≤ st.usageMax then
    (st.page <<< 16) % 2 ^ 32 ||| (st.usageMin + i) % 2 ^ 32
  else 0

/-- The fields of an input item. -/
def hidFields (v : ℕ) (st : HidItems) : List HidField :=
  (List.range st.count).map fun i =>
    ⟨st.bit + i * st.size, st.size, hidUsage st i, st.min, st.max, v⟩

variable {σ : Type}

/-- The report of an input item: the first one is selected, and another one is refused. -/
def hidSelect (st : HidItems) : Option HidItems :=
  if st.inputReportSelected = false then
    some { st with inputReportId := st.currentReportId, inputReportSelected := true }
  else if st.inputReportId ≠ st.currentReportId then none
  else some st

/-- An input item. -/
def hidInput (onField : σ → HidField → Option σ) (v : ℕ) (st : HidItems) (out : σ) :
    Option (HidItems × σ) := do
  let st ← hidSelect st
  if st.size = 0 ∨ st.size > 32 ∨ st.count > 64 ∨ st.size * st.count > 512 - st.bit then none
  else
    let out ← (hidFields v st).foldlM onField out
    return ({ st with bit := st.bit + st.size * st.count }, out)

/-- Main items use the local state up. -/
def hidLocal (b : ℕ) (st : HidItems) : HidItems :=
  if b &&& 0x0c = 0 then
    { st with usages := [], haveRange := false, usageMin := 0, usageMax := 0 }
  else st

/-- The bytes behind the first one of an item. -/
def hidBytes (b : ℕ) : ℕ := if b &&& 3 = 3 then 4 else b &&& 3

/-- One item. -/
def hidStep (onField : σ → HidField → Option σ) (b v : ℕ) (st : HidItems) (out : σ) :
    Option (HidItems × σ) :=
  if b &&& 0xfc = 0x80 then hidInput onField v st out
  else (hidItem (b &&& 0xfc) (hidBytes b) v st).map fun st => (st, out)

/-- The loop over the items. -/
def hidLoop (onField : σ → HidField → Option σ) (st : HidItems) (out : σ) :
    List UInt8 → Option (HidItems × σ)
  | [] => some (st, out)
  | b :: desc =>
      if b = 0xfe then none
      else if hidBytes b.toNat > desc.length then none
      else
        match hidStep onField b.toNat (hidValue (desc.take (hidBytes b.toNat))) st out with
        | none => none
        | some (st, out) =>
            hidLoop onField (hidLocal b.toNat st) out (desc.drop (hidBytes b.toNat))
termination_by desc => desc.length
decreasing_by
  rw [List.length_drop, List.length_cons]
  omega

abbrev usageX : ℕ := 0x10030
abbrev usageY : ℕ := 0x10031
abbrev usageWheel : ℕ := 0x10038

/-- The axis of a usage. -/
def HidPointer.axis (h : HidPointer) (usage : ℕ) : HidAxis :=
  if usage = usageX then h.x else if usage = usageY then h.y else h.wheel

def HidPointer.setAxis (h : HidPointer) (usage : ℕ) (a : HidAxis) : HidPointer :=
  if usage = usageX then { h with x := a }
  else if usage = usageY then { h with y := a }
  else { h with wheel := a }

/-- A usage of an axis. -/
def IsAxis (usage : ℕ) : Prop := usage = usageX ∨ usage = usageY ∨ usage = usageWheel

/-- A button that counts: of one bit, with a usage up to Button 3. -/
def IsButton (f : HidField) : Prop :=
  f.usage >>> 16 = 9 ∧ f.size = 1 ∧ f.usage &&& 65535 ≤ 3

instance (usage : ℕ) : Decidable (IsAxis usage) := inferInstanceAs (Decidable (_ ∨ _))
instance (f : HidField) : Decidable (IsButton f) := inferInstanceAs (Decidable (_ ∧ _))

/-- What the parser makes of a field, with `relative`. -/
def hidField (out : HidPointer × Option Bool) (f : HidField) : Option (HidPointer × Option Bool) :=
  let (h, relative) := out
  if f.flags.testBit 0 then some out
  else if f.flags.testBit 1 = false then none
  else if IsAxis f.usage then
    if f.size > 31 ∨ f.max ≤ f.min then none
    else if (h.axis f.usage).bits ≠ 0 then none
    else
      let h := h.setAxis f.usage ⟨f.off, f.size, f.min, f.max⟩
      if f.usage ≠ usageWheel then
        let rel := f.flags.testBit 2
        if relative ≠ none ∧ relative ≠ some rel then none else some (h, some rel)
      else some (h, relative)
  else if IsButton f then
    some ({ h with
      buttonsOff := if h.buttonsCount = 0 then f.off else h.buttonsOff
      buttonsCount := h.buttonsCount + 1 }, relative)
  else some out

/-- `struct usb_hid_pointer h = {0}`. -/
def hidZero : HidPointer := ⟨⟨0, 0, 0, 0⟩, ⟨0, 0, 0, 0⟩, ⟨0, 0, 0, 0⟩, 0, 0, 0, 0, false⟩

/-- `usb_hid_pointer_parse`. -/
def usbHidPointerParse (desc : List UInt8) : Option HidPointer := do
  let (st, h, relative) ← hidLoop hidField {} (hidZero, none) desc
  if h.x.bits = 0 ∨ h.y.bits = 0 ∨ h.buttonsCount > 3 then none
  else
    return { h with
      absolute := relative = some false, reportBits := st.bit, reportId := st.inputReportId }

/-! ## Reports -/

/-- What a read gives. -/
inductive HidRead where
  | outside
  | rejected
  | values (x y wheel : ℤ) (buttons : ℕ)
  deriving DecidableEq

/-- `usb_hid_bits`, `none` for a read outside of the data. -/
def usbHidBits (p : List UInt8) (off bits : ℕ) : Option ℕ :=
  (List.range bits).foldlM (fun v i => do
    let byte ← p[(off + i) / 8]?
    return v ||| (byte.toNat >>> ((off + i) % 8) &&& 1) <<< i) 0

/-- `usb_hid_signed`. -/
def usbHidSigned (v bits : ℕ) : ℤ :=
  if bits = 0 ∨ bits > 31 then 0 else (v ^^^ 1 <<< (bits - 1) : ℕ) - (1 <<< (bits - 1) : ℕ)

/-- The data behind the report ID. -/
def hidData (h : HidPointer) (report : List UInt8) : Option (List UInt8) :=
  if h.reportId ≠ 0 then
    match report with
    | [] => none
    | id :: data => if id.toNat ≠ h.reportId then none else some data
  else some report

/-- The value of an axis: with its sign, if the limits have one. -/
def hidAxisValue (a : HidAxis) (v : ℕ) : ℤ := if a.min < 0 then usbHidSigned v a.bits else v

/-- The value of the wheel, zero without one. -/
def hidWheel (h : HidPointer) (data : List UInt8) : Option ℤ :=
  if h.wheel.bits ≠ 0 then
    (usbHidBits data h.wheel.off h.wheel.bits).map fun v => usbHidSigned v h.wheel.bits
  else some 0

/-- The values of a report, `none` for a read outside of its data. -/
def hidValues (h : HidPointer) (data : List UInt8) : Option HidRead := do
  let vx ← usbHidBits data h.x.off h.x.bits
  let vy ← usbHidBits data h.y.off h.y.bits
  let wheel ← hidWheel h data
  let buttons ← usbHidBits data h.buttonsOff h.buttonsCount
  return .values (hidAxisValue h.x vx) (hidAxisValue h.y vy) wheel buttons

/-- `usb_hid_pointer_read`. -/
def usbHidPointerRead (h : HidPointer) (report : List UInt8) : HidRead :=
  match hidData h report with
  | none => .rejected
  | some data =>
      if data.length < (h.reportBits + 7) / 8 then .rejected
      else (hidValues h data).getD .outside

end ZealBringup.Usb
