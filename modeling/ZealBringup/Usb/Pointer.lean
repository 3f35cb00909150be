import ZealBringup.Usb.HidRead

/-!
# Pointer reports on the screen

`usb_clamp` and `usb_pointer_report` of `usb_xhci.h`.

* `PointerState`, `usbInit` — the pointer of `g_usb` and its start.
* `usbScale` — the scaling of an axis; a division by zero or an overflow is `none`.
* `usbPointerReport`, `pointerRun` — a report, and reports one after another.
* `usb_pointer_in_bounds` — the parser and the reader stay in bounds, and the pointer stays on a
  screen of at most 2147483648 pixels a side.
-/

namespace ZealBringup.Usb

/-! ## Reports -/

/-- The pointer of `g_usb`. -/
structure PointerState where
  width : ℕ
  height : ℕ
  x : ℤ
  y : ℤ
  wheel : ℤ
  buttons : ℕ
  pointerReports : ℕ
  wheelEvents : ℕ
  deriving DecidableEq

/-- `(int32_t)n`. -/
def toInt32 (n : ℕ) : ℤ :=
  if n % 2 ^ 32 < 2 ^ 31 then (n % 2 ^ 32 : ℕ) else (n % 2 ^ 32 : ℕ) - 2 ^ 32

/-- The pointer after `usb_init`. -/
def usbInit (width height : ℕ) : PointerState :=
  let width := if width ≠ 0 then width else 800
  let height := if height ≠ 0 then height else 600
  ⟨width, height, toInt32 (width / 2), toInt32 (height / 2), 0, 0, 0, 0⟩

/-- `usb_clamp`. -/
def usbClamp (value max : ℤ) : ℤ := if value < 0 then 0 else if value > max then max else value

/-- A number of `int64_t`. -/
def IsInt64 (n : ℤ) : Prop := -2 ^ 63 ≤ n ∧ n < 2 ^ 63

instance (n : ℤ) : Decidable (IsInt64 n) := inferInstanceAs (Decidable (_ ∧ _))

/-- The scaling of a value to so many pixels. -/
def usbScale (value : ℤ) (a : HidAxis) (pixels : ℕ) : Option ℤ :=
  let product := (value - a.min) * (pixels - 1 : ℕ)
  if ¬IsInt64 product ∨ a.max - a.min = 0 then none
  else some (usbClamp (product.tdiv (a.max - a.min)) (toInt32 (pixels - 1)))

/-- Where a report moves the pointer. -/
def usbMove (h : HidPointer) (st : PointerState) (x y : ℤ) : Option (ℤ × ℤ) :=
  if h.absolute then do
    let px ← usbScale x h.x st.width
    let py ← usbScale y h.y st.height
    return (px, py)
  else
    some (usbClamp (st.x + x) (toInt32 (st.width - 1)),
      usbClamp (st.y + y) (toInt32 (st.height - 1)))

/-- `usb_pointer_report` at the owner of the pointer, `none` for what C leaves undefined. -/
def usbPointerReport (h : HidPointer) (report : List UInt8) (st : PointerState) :
    Option PointerState :=
  match usbHidPointerRead h report with
  | .outside => none
  | .rejected => some st
  | .values x y wheel buttons => do
      let (px, py) ← usbMove h st x y
      let next := st.wheel + wheel
      return { st with
        x := px
        y := py
        buttons := buttons
        wheel := if next > 127 then 127 else if next < -128 then -128 else next
        pointerReports := st.pointerReports + 1
        wheelEvents := if wheel ≠ 0 then st.wheelEvents + 1 else st.wheelEvents }

/-- Reports of the owners of the pointer, one after another. -/
def pointerRun (st : PointerState) (reports : List (HidPointer × List UInt8)) :
    Option PointerState :=
  reports.foldlM (fun st r => usbPointerReport r.1 r.2 st) st

/-! ## Bounds -/

variable {h : HidPointer} {a : HidAxis} {desc p data report : List UInt8} {v bits pixels : ℕ}
  {value : ℤ} {st : PointerState}

theorem usbClamp_bounds (value : ℤ) {max : ℤ} (hmax : 0 ≤ max) :
    0 ≤ usbClamp value max ∧ usbClamp value max ≤ max := by
  rw [usbClamp]
  split_ifs <;> omega

theorem toInt32_of_lt {n : ℕ} (hn : n < 2 ^ 31) : toInt32 n = n := by
  have hmod : n % 2 ^ 32 = n := Nat.mod_eq_of_lt (by omega)
  rw [toInt32, hmod, if_pos hn]

theorem usbHidSigned_bounds (hv : v < 2 ^ bits) (hbits : bits ≤ 31) :
    -2 ^ 30 ≤ usbHidSigned v bits ∧ usbHidSigned v bits < 2 ^ 31 := by
  rw [usbHidSigned]
  split
  · decide
  · next h0 =>
    have hpow : 2 ^ (bits - 1) ≤ 2 ^ 30 := Nat.pow_le_pow_right (by decide) (by omega)
    have hpow' : 2 ^ bits ≤ 2 ^ 31 := Nat.pow_le_pow_right (by decide) hbits
    have hlt : v ^^^ 2 ^ (bits - 1) < 2 ^ bits :=
      Nat.xor_lt_two_pow hv (Nat.pow_lt_pow_right (by decide) (by omega))
    have hpos : 0 < 2 ^ (bits - 1) := Nat.pow_pos (by decide)
    rw [Nat.one_shiftLeft]
    omega

theorem hidAxisValue_bounds (hv : v < 2 ^ a.bits) (hbits : a.bits ≤ 31) :
    -2 ^ 30 ≤ hidAxisValue a v ∧ hidAxisValue a v < 2 ^ 31 := by
  rw [hidAxisValue]
  split
  · exact usbHidSigned_bounds hv hbits
  · have hpow : 2 ^ a.bits ≤ 2 ^ 31 := Nat.pow_le_pow_right (by decide) hbits
    omega

/-- **The scaling** neither overflows nor divides by zero, and stays on the screen. -/
theorem usbScale_eq {reportBits : ℕ} (hsafe : AxisSafe a reportBits)
    (hvalue : -2 ^ 30 ≤ value ∧ value < 2 ^ 31) (hpos : 0 < pixels) (hpixels : pixels ≤ 2 ^ 31) :
    ∃ px, usbScale value a pixels = some px ∧ 0 ≤ px ∧ px ≤ pixels - 1 := by
  obtain ⟨hmin, hmax⟩ := hsafe.words
  have hlimits := hsafe.limits
  have hproduct : IsInt64 ((value - a.min) * (pixels - 1 : ℕ)) := by
    have habs : (value - a.min).natAbs ≤ 2 ^ 32 := by omega
    have hle : ((value - a.min) * (pixels - 1 : ℕ)).natAbs ≤ 2 ^ 32 * (2 ^ 31 - 1) := by
      rw [Int.natAbs_mul, Int.natAbs_natCast]
      exact Nat.mul_le_mul habs (by omega)
    generalize (value - a.min) * (pixels - 1 : ℕ) = product at hle
    rw [IsInt64]
    omega
  have hpx : toInt32 (pixels - 1) = (pixels - 1 : ℕ) := toInt32_of_lt (by omega)
  obtain ⟨hlow, hhigh⟩ := usbClamp_bounds
    (((value - a.min) * (pixels - 1 : ℕ)).tdiv (a.max - a.min)) (Int.natCast_nonneg (pixels - 1))
  refine ⟨_, if_neg (not_or.2 ⟨not_not.2 hproduct, by omega⟩), ?_⟩
  rw [hpx]
  exact ⟨hlow, by omega⟩

theorem usbHidPointerRead_bounds (hsafe : HidSafe h) {x y wheel : ℤ} {buttons : ℕ}
    (hread : usbHidPointerRead h report = .values x y wheel buttons) :
    (-2 ^ 30 ≤ x ∧ x < 2 ^ 31) ∧ -2 ^ 30 ≤ y ∧ y < 2 ^ 31 := by
  obtain ⟨data, -, hlen, hvalues⟩ := usbHidPointerRead_values hread
  obtain ⟨vx, vy, vw, b, hvx, hvy, -, -, heq⟩ := hidValues_eq hsafe hlen
  rw [hvalues] at heq
  obtain ⟨rfl, rfl, -, -⟩ := HidRead.values.inj (Option.some.inj heq)
  have hlt : ∀ {a : HidAxis} {v : ℕ}, AxisSafe a h.reportBits →
      usbHidBits data a.off a.bits = some v → v < 2 ^ a.bits := fun {a v} ha hv => by
    have hwithin := ha.within
    obtain ⟨v', hv', hbits⟩ := usbHidBits_eq data a.off a.bits (by omega)
    rw [hv] at hv'
    rw [Option.some.inj hv']
    exact lt_of_usbHidBits hbits
  exact ⟨hidAxisValue_bounds (hlt hsafe.x hvx) hsafe.x.bits.2,
    hidAxisValue_bounds (hlt hsafe.y hvy) hsafe.y.bits.2⟩

/-! ## Runs -/

/-- The pointer is on a screen of at most `2 ^ 31` pixels a side. -/
structure OnScreen (st : PointerState) : Prop where
  width : 0 < st.width ∧ st.width ≤ 2 ^ 31
  height : 0 < st.height ∧ st.height ≤ 2 ^ 31
  x : 0 ≤ st.x ∧ st.x ≤ st.width - 1
  y : 0 ≤ st.y ∧ st.y ≤ st.height - 1

theorem usbInit_onScreen {width height : ℕ} (hwidth : width ≤ 2 ^ 31) (hheight : height ≤ 2 ^ 31) :
    OnScreen (usbInit width height) := by
  have hside : ∀ n d : ℕ, n ≤ 2 ^ 31 → 0 < d → d ≤ 2 ^ 31 →
      0 < (if n ≠ 0 then n else d) ∧ (if n ≠ 0 then n else d) ≤ 2 ^ 31 := fun n d hn hd hd' => by
    split <;> omega
  have hw := hside width 800 hwidth (by decide) (by decide)
  have hh := hside height 600 hheight (by decide) (by decide)
  refine ⟨hw, hh, ?_, ?_⟩
  · rw [usbInit]
    dsimp only
    rw [toInt32_of_lt (by omega)]
    omega
  · rw [usbInit]
    dsimp only
    rw [toInt32_of_lt (by omega)]
    omega

theorem usbMove_eq (hsafe : HidSafe h) (hst : OnScreen st) {x y : ℤ}
    (hx : -2 ^ 30 ≤ x ∧ x < 2 ^ 31) (hy : -2 ^ 30 ≤ y ∧ y < 2 ^ 31) :
    ∃ px py, usbMove h st x y = some (px, py) ∧ (0 ≤ px ∧ px ≤ st.width - 1) ∧
      0 ≤ py ∧ py ≤ st.height - 1 := by
  obtain ⟨hw, hw'⟩ := hst.width
  obtain ⟨hh, hh'⟩ := hst.height
  rw [usbMove]
  split
  · obtain ⟨px, hpx, hbounds⟩ := usbScale_eq hsafe.x hx hw hw'
    obtain ⟨py, hpy, hbounds'⟩ := usbScale_eq hsafe.y hy hh hh'
    exact ⟨px, py, by rw [hpx, hpy]; rfl, hbounds, hbounds'⟩
  · have hpx := usbClamp_bounds (st.x + x) (Int.natCast_nonneg (st.width - 1))
    have hpy := usbClamp_bounds (st.y + y) (Int.natCast_nonneg (st.height - 1))
    refine ⟨_, _, rfl, ?_⟩
    rw [toInt32_of_lt (by omega), toInt32_of_lt (by omega)]
    omega

/-- **A report keeps the pointer on the screen.** -/
theorem usbPointerReport_onScreen (hparse : usbHidPointerParse desc = some h)
    (report : List UInt8) (hst : OnScreen st) :
    ∃ st', usbPointerReport h report st = some st' ∧ OnScreen st' ∧ st'.width = st.width ∧
      st'.height = st.height := by
  have hsafe := usbHidPointerParse_safe hparse
  rw [usbPointerReport]
  cases hread : usbHidPointerRead h report with
  | outside => exact absurd hread (usbHidPointerRead_inside hsafe report)
  | rejected => exact ⟨st, rfl, hst, rfl, rfl⟩
  | values x y wheel buttons =>
    obtain ⟨hx, hy⟩ := usbHidPointerRead_bounds hsafe hread
    obtain ⟨px, py, hmove, hpx, hpy⟩ := usbMove_eq hsafe hst hx hy
    dsimp only
    rw [hmove]
    exact ⟨_, rfl, ⟨hst.width, hst.height, hpx, hpy⟩, rfl, rfl⟩

/-- **Reports in sequence** keep the pointer on the screen. -/
theorem pointerRun_onScreen {reports : List (HidPointer × List UInt8)}
    (hreports : ∀ r ∈ reports, ∃ desc, usbHidPointerParse desc = some r.1) (hst : OnScreen st) :
    ∃ st', pointerRun st reports = some st' ∧ OnScreen st' ∧ st'.width = st.width ∧
      st'.height = st.height := by
  induction reports generalizing st with
  | nil => exact ⟨st, rfl, hst, rfl, rfl⟩
  | cons r reports ih =>
    obtain ⟨desc, hparse⟩ := hreports r (List.mem_cons_self ..)
    obtain ⟨mid, hmid, hon, hwidth, hheight⟩ := usbPointerReport_onScreen hparse r.2 hst
    obtain ⟨st', hrun, hon', hwidth', hheight'⟩ :=
      ih (fun r' hr' => hreports r' (List.mem_cons_of_mem r hr')) hon
    refine ⟨st', ?_, hon', hwidth'.trans hwidth, hheight'.trans hheight⟩
    rw [pointerRun, List.foldlM_cons, hmid]
    exact hrun

/-- **Parsing and reading are in bounds**: all fields are within at most 512 bits, axes have 1 to 31
bits and proper limits, no report is read outside of its bytes, and on a screen of at most `2 ^ 31`
pixels a side no report leaves anything undefined or the pointer outside. -/
theorem usb_pointer_in_bounds :
    (∀ desc h, usbHidPointerParse desc = some h →
      HidSafe h ∧ ∀ report, usbHidPointerRead h report ≠ .outside) ∧
    ∀ width height, width ≤ 2 ^ 31 → height ≤ 2 ^ 31 → ∀ reports : List (HidPointer × List UInt8),
      (∀ r ∈ reports, ∃ desc, usbHidPointerParse desc = some r.1) →
        ∃ st, pointerRun (usbInit width height) reports = some st ∧
          st.width = (usbInit width height).width ∧ st.height = (usbInit width height).height ∧
          (0 ≤ st.x ∧ st.x ≤ st.width - 1) ∧ 0 ≤ st.y ∧ st.y ≤ st.height - 1 := by
  refine ⟨fun desc h hparse => ⟨usbHidPointerParse_safe hparse,
    usbHidPointerRead_inside (usbHidPointerParse_safe hparse)⟩, ?_⟩
  intro width height hwidth hheight reports hreports
  obtain ⟨st, hrun, hon, hw, hh⟩ := pointerRun_onScreen hreports (usbInit_onScreen hwidth hheight)
  exact ⟨st, hrun, hw, hh, hon.x, hon.y⟩

/-! ## A mouse -/

/-- Relative X and Y of eight bits each, from -127 to 127. -/
def mouseItems : List (UInt8 × List UInt8) :=
  [(0x05, [0x01]), (0x09, [0x30]), (0x09, [0x31]), (0x15, [0x81]), (0x25, [0x7f]), (0x75, [0x08]),
    (0x95, [0x02]), (0x81, [0x06])]

def mouse : HidPointer :=
  ⟨⟨0, 8, -127, 127⟩, ⟨8, 8, -127, 127⟩, ⟨0, 0, 0, 0⟩, 0, 0, 16, 0, false⟩

theorem mouse_parse :
    usbHidPointerParse (mouseItems.flatMap fun item => item.1 :: item.2) = some mouse := by
  rw [usbHidPointerParse, hidLoop_items hidField _ _ (by decide)]
  decide

theorem mouse_reports (report : List UInt8) :
    ∀ r ∈ [(mouse, report)], ∃ desc, usbHidPointerParse desc = some r.1 := by
  intro r hr
  rw [List.mem_singleton.1 hr]
  exact ⟨_, mouse_parse⟩

/-- A step to the left. -/
theorem usb_pointer_in_bounds_mouse :
    ∃ st, pointerRun (usbInit 640 480) [(mouse, [0x81, 0x00])] = some st ∧
      st.width = (usbInit 640 480).width ∧ st.height = (usbInit 640 480).height ∧
      (0 ≤ st.x ∧ st.x ≤ st.width - 1) ∧ 0 ≤ st.y ∧ st.y ≤ st.height - 1 :=
  usb_pointer_in_bounds.2 640 480 (by decide) (by decide) _ (mouse_reports [0x81, 0x00])

/-- **A screen of 4294967295 pixels** is too wide for 32-bit coordinates. -/
theorem usb_pointer_off_screen :
    ¬∀ width height, width < 2 ^ 32 → height < 2 ^ 32 →
      ∀ reports : List (HidPointer × List UInt8),
        (∀ r ∈ reports, ∃ desc, usbHidPointerParse desc = some r.1) →
          ∃ st, pointerRun (usbInit width height) reports = some st ∧
            (0 ≤ st.x ∧ st.x ≤ st.width - 1) ∧ 0 ≤ st.y ∧ st.y ≤ st.height - 1 := by
  intro hall
  obtain ⟨st, hrun, ⟨hx, -⟩, -⟩ := hall (2 ^ 32 - 1) 480 (by decide) (by decide)
    _ (mouse_reports [0x00, 0x00])
  have hstate : (pointerRun (usbInit (2 ^ 32 - 1) 480) [(mouse, [0x00, 0x00])]).map
      PointerState.x = some (-2) := by decide
  rw [hrun, Option.map_some] at hstate
  rw [Option.some.inj hstate] at hx
  exact absurd hx (by decide)

end ZealBringup.Usb
