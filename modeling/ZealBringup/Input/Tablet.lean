import Mathlib
import ZealBringup.Lib.Fifo

/-!
# The tablet

`virtio_tablet_poll` and `virtio_tablet_sample` of `virtio_tablet.h`: the events of a virtio tablet
are read from the used ring, and a sample scales the axes to the screen.

* `vtHandle`, `vtPollLoop`, `virtioTabletSample` — the driver; `none` is a sum of two `int32_t` that
  overflows.
* `axisTarget` — the pixel that an axis stands for.
* `axisPixel_eq_iff` — when the driver computes it.
* `vtPollLoop_eq` — a poll handles the events that are pending, in their order, and offers every
  descriptor again.
-/

namespace ZealBringup.Input

open Fifo

/-! ## The driver -/

/-- `VT_QSIZE`. -/
abbrev vtQsize : ℕ := 8

/-- A `uint16_t` counter of a ring. -/
abbrev VtIndex := Fin 65536

local instance vtSlotsPos : NeZero 8 := ⟨by decide⟩

local instance vtIndexPos : NeZero 65536 := ⟨by decide⟩

/-- A `uint32_t` read as `int32_t`. -/
def int32 (v : UInt32) : ℤ := v.toInt32.toInt

/-- `struct vt_event`. -/
structure VtEvent where
  type : UInt16
  code : UInt16
  value : UInt32
  deriving DecidableEq

/-- `struct vt_dev` with the rings and the events that it points to. -/
structure VtDev where
  avail : Fin vtQsize → UInt16
  availPub : VtIndex
  used : Fin vtQsize → UInt32
  usedIdx : VtIndex
  events : Fin vtQsize → VtEvent
  lastUsed : VtIndex
  availIdx : VtIndex
  absX : ℤ
  absY : ℤ
  maxX : ℤ
  maxY : ℤ
  wheel : ℤ
  ready : Bool
  moved : Bool
  buttons : BitVec 32

def vtOffer (d : VtDev) (id : UInt16) : VtDev :=
  { d with
    avail := Function.update d.avail (slot vtQsize d.availIdx) id
    availIdx := d.availIdx + 1
    availPub := d.availIdx + 1 }

/-- A button bit set or cleared by the value of an event. -/
def setButton (buttons bit : BitVec 32) (value : UInt32) : BitVec 32 :=
  if value ≠ 0 then buttons ||| bit else buttons &&& ~~~bit

/-- The wheel is kept to a byte. -/
def clampWheel (next : ℤ) : ℤ :=
  let next := if next > 127 then 127 else next
  if next < -128 then -128 else next

def vtHandle (d : VtDev) (ev : VtEvent) : Option VtDev :=
  if ev.type = 1 then
    if ev.code = 0x110 then some { d with buttons := setButton d.buttons 1 ev.value }
    else if ev.code = 0x111 then some { d with buttons := setButton d.buttons 2 ev.value }
    else some d
  else if ev.type = 2 then
    if ev.code = 8 then
      let next := d.wheel + int32 ev.value
      -- the sum of two `int32_t` is undefined outside the type
      if next < -2 ^ 31 ∨ 2 ^ 31 ≤ next then none else some { d with wheel := clampWheel next }
    else some d
  else if ev.type ≠ 3 then some d
  else if ev.code = 0 then some { d with absX := int32 ev.value, moved := true }
  else if ev.code = 1 then some { d with absY := int32 ev.value, moved := true }
  else some d

/-- The event of a descriptor. -/
def VtDev.event (d : VtDev) (id : UInt32) : VtEvent := d.events (Fin.ofNat vtQsize id.toNat)

theorem vtHandle_lastUsed {d d' : VtDev} {ev : VtEvent} (h : vtHandle d ev = some d') :
    d'.lastUsed = d.lastUsed := by
  unfold vtHandle at h
  dsimp only at h
  split_ifs at h <;> cases h <;> rfl

/-- The loop of `virtio_tablet_poll`. -/
def vtPollLoop (uidx : VtIndex) (d : VtDev) : Option VtDev :=
  if d.lastUsed = uidx then some d
  else
    let id := d.used (slot vtQsize d.lastUsed)
    match _h : vtHandle d (d.event id) with
    | none => none
    | some d' => vtPollLoop uidx (vtOffer { d' with lastUsed := d'.lastUsed + 1 } id.toUInt16)
termination_by (window (fun i : Fin vtQsize => i) d.lastUsed uidx).length
decreasing_by
  have hne : d.lastUsed ≠ uidx := by assumption
  have hlast : d'.lastUsed = d.lastUsed := vtHandle_lastUsed (by assumption)
  rw [window_pop hne]
  exact (congrArg (fun i => (window (fun i : Fin vtQsize => i) (i + 1) uidx).length) hlast).trans_lt
    (Nat.lt_succ_self _)

def virtioTabletPoll (d : VtDev) : Option VtDev :=
  if d.ready then vtPollLoop d.usedIdx d else some d

/-- The pixel of an axis: the quotient goes to a `uint32_t` before it is kept to the screen. -/
def axisPixel (v max : ℤ) (size : UInt32) : ℕ :=
  let mx := if max > 0 then max else 0x7fff
  let x := ((v * (size.toNat - 1)).tdiv mx % 2 ^ 32).toNat
  if x ≥ size.toNat then size.toNat - 1 else x

/-- What a sample stores. -/
structure VtReading where
  x : ℕ
  y : ℕ
  buttons : Option (BitVec 32)
  wheel : Option ℤ
  deriving DecidableEq

/-- `virtio_tablet_sample`; the flags are whether the two pointers are there. -/
def virtioTabletSample (d : VtDev) (w h : UInt32) (buttons wheel : Bool) :
    Option (VtDev × Option VtReading) :=
  if d.ready = false ∨ w < 2 ∨ h < 2 then some (d, none)
  else
    match virtioTabletPoll d with
    | none => none
    | some d =>
      let r := ⟨axisPixel d.absX d.maxX w, axisPixel d.absY d.maxY h,
        if buttons then some d.buttons else none, if wheel then some d.wheel else none⟩
      some ({ d with wheel := if wheel then 0 else d.wheel, moved := false }, some r)

/-! ## The screen -/

/-- The maximum that an axis is scaled by. -/
def axisMax (max : ℤ) : ℤ := if max > 0 then max else 0x7fff

theorem axisMax_pos (max : ℤ) : 0 < axisMax max := by
  unfold axisMax
  split_ifs with h
  · exact h
  · decide

/-- The pixel that an axis stands for. -/
def axisTarget (v max : ℤ) (size : UInt32) : ℤ :=
  Max.max 0 (min (v * (size.toNat - 1) / axisMax max) (size.toNat - 1))

/-- The quotient is in a `uint32_t`, or what is left of it there is kept to the same pixel. -/
def AxisFits (v max : ℤ) (size : UInt32) : Prop :=
  if 0 ≤ v then
    v * (size.toNat - 1) / axisMax max < 2 ^ 32 ∨
      (size.toNat - 1 : ℤ) ≤ v * (size.toNat - 1) / axisMax max % 2 ^ 32
  else -v * (size.toNat - 1) / axisMax max % 2 ^ 32 = 0

instance (v max : ℤ) (size : UInt32) : Decidable (AxisFits v max size) :=
  inferInstanceAs (Decidable (ite _ _ _))

theorem axisTarget_mono (max : ℤ) {size : UInt32} (h : 2 ≤ size) :
    Monotone fun v => axisTarget v max size := by
  intro a b hab
  have hsize : (0 : ℤ) ≤ size.toNat - 1 := by
    have h2 : 2 ≤ size.toNat := UInt32.le_iff_toNat_le.mp h
    omega
  apply max_le_max_left
  apply min_le_min_right
  exact Int.ediv_le_ediv (axisMax_pos max) (mul_le_mul_of_nonneg_right hab hsize)

theorem axisTarget_mem (v max : ℤ) {size : UInt32} (h : 2 ≤ size) :
    0 ≤ axisTarget v max size ∧ axisTarget v max size < size.toNat := by
  have h2 : 2 ≤ size.toNat := UInt32.le_iff_toNat_le.mp h
  unfold axisTarget
  omega

/-- **The driver computes the pixel exactly when the quotient fits.** -/
theorem axisPixel_eq_iff (v max : ℤ) {size : UInt32} (h : 2 ≤ size) :
    (axisPixel v max size : ℤ) = axisTarget v max size ↔ AxisFits v max size := by
  have h2 : 2 ≤ size.toNat := UInt32.le_iff_toNat_le.mp h
  have hmax := axisMax_pos max
  have hmx : (if max > 0 then max else 0x7fff) = axisMax max := rfl
  unfold axisPixel axisTarget AxisFits
  dsimp only
  rw [hmx]
  by_cases hv : 0 ≤ v
  · have hprod : 0 ≤ v * ((size.toNat : ℤ) - 1) := mul_nonneg hv (by omega)
    rw [if_pos hv, Int.tdiv_eq_ediv_of_nonneg hprod]
    generalize hq : v * ((size.toNat : ℤ) - 1) / axisMax max = q
    have hq0 : 0 ≤ q := hq ▸ Int.ediv_nonneg hprod hmax.le
    split_ifs <;> omega
  · have hprod : 0 ≤ -v * ((size.toNat : ℤ) - 1) := mul_nonneg (by omega) (by omega)
    have hneg : v * ((size.toNat : ℤ) - 1) < 0 := by
      apply mul_neg_of_neg_of_pos <;> omega
    have hlow : v * ((size.toNat : ℤ) - 1) / axisMax max < 0 := Int.ediv_neg_of_neg_of_pos hneg hmax
    have hflip : (v * ((size.toNat : ℤ) - 1)).tdiv (axisMax max) =
        -(-v * ((size.toNat : ℤ) - 1) / axisMax max) := by
      rw [← Int.tdiv_eq_ediv_of_nonneg hprod, neg_mul, Int.neg_tdiv, neg_neg]
    rw [if_neg hv, hflip]
    generalize -v * ((size.toNat : ℤ) - 1) / axisMax max = q
    split_ifs <;> omega

/-! ## The pointer -/

/-- The value that an event gives an axis. -/
def axisOf (code : UInt16) (e : VtEvent) : Option ℤ :=
  if e.type = 3 ∧ e.code = code then some (int32 e.value) else none

/-- The state that an event gives a button. -/
def buttonOf (code : UInt16) (e : VtEvent) : Option Bool :=
  if e.type = 1 ∧ e.code = code then some (e.value != 0) else none

/-- The steps that an event turns the wheel. -/
def wheelDelta (e : VtEvent) : ℤ := if e.type = 2 ∧ e.code = 8 then int32 e.value else 0

/-- What the driver knows of the pointer. -/
@[ext]
structure Pointer where
  x : ℤ
  y : ℤ
  left : Bool
  right : Bool
  wheel : ℤ

/-- The pointer after an event. -/
def Pointer.next (p : Pointer) (e : VtEvent) : Pointer where
  x := (axisOf 0 e).getD p.x
  y := (axisOf 1 e).getD p.y
  left := (buttonOf 0x110 e).getD p.left
  right := (buttonOf 0x111 e).getD p.right
  wheel := clampWheel (p.wheel + wheelDelta e)

def VtDev.pointer (d : VtDev) : Pointer :=
  ⟨d.absX, d.absY, d.buttons.getLsbD 0, d.buttons.getLsbD 1, d.wheel⟩

/-- The wheel is a byte. -/
def WheelByte (w : ℤ) : Prop := -128 ≤ w ∧ w ≤ 127

/-- No sum of the wheel and a step overflows. -/
def WheelFits : ℤ → List VtEvent → Prop
  | _, [] => True
  | w, e :: es => (-2 ^ 31 ≤ w + wheelDelta e ∧ w + wheelDelta e < 2 ^ 31) ∧
      WheelFits (clampWheel (w + wheelDelta e)) es

instance decidableWheelFits : (w : ℤ) → (es : List VtEvent) → Decidable (WheelFits w es)
  | _, [] => inferInstanceAs (Decidable True)
  | w, e :: es =>
    have := decidableWheelFits (clampWheel (w + wheelDelta e)) es
    inferInstanceAs (Decidable (_ ∧ _))

theorem wheelByte_clampWheel (w : ℤ) : WheelByte (clampWheel w) := by
  unfold WheelByte clampWheel
  dsimp only
  split_ifs <;> omega

theorem clampWheel_of_byte {w : ℤ} (h : WheelByte w) : clampWheel w = w := by
  unfold WheelByte at h
  unfold clampWheel
  dsimp only
  split_ifs <;> omega

theorem setButton_getElem (b bit : BitVec 32) (v : UInt32) (i : ℕ) (hi : i < 32) :
    (setButton b bit v)[i] = if bit[i] then v != 0 else b[i] := by
  unfold setButton
  by_cases hv : v = 0
  · simp only [hv, ne_eq, not_true_eq_false, if_false, BitVec.getElem_and, BitVec.getElem_not]
    cases bit[i] <;> simp
  · simp only [ne_eq, hv, not_false_eq_true, if_true, BitVec.getElem_or]
    cases bit[i] <;> simp [hv]

/-- **An event changes the pointer and nothing else, unless the wheel overflows.** -/
theorem vtHandle_eq {d : VtDev} (ev : VtEvent) (hw : WheelByte d.wheel) :
    if -2 ^ 31 ≤ d.wheel + wheelDelta ev ∧ d.wheel + wheelDelta ev < 2 ^ 31 then
      ∃ d', vtHandle d ev = some d' ∧ d'.pointer = d.pointer.next ev ∧
        d' = { d with absX := d'.absX, absY := d'.absY, wheel := d'.wheel, moved := d'.moved,
                      buttons := d'.buttons }
    else vtHandle d ev = none := by
  by_cases hwheel : ev.type = 2 ∧ ev.code = 8
  · obtain ⟨htype, hcode⟩ := hwheel
    have hdelta : wheelDelta ev = int32 ev.value := if_pos ⟨htype, hcode⟩
    have hrun : vtHandle d ev =
        if d.wheel + int32 ev.value < -2 ^ 31 ∨ 2 ^ 31 ≤ d.wheel + int32 ev.value then none
        else some { d with wheel := clampWheel (d.wheel + int32 ev.value) } := by
      simp [vtHandle, htype, hcode]
    rw [hdelta, hrun]
    split_ifs with hin hout hout
    · omega
    · refine ⟨_, rfl, ?_, rfl⟩
      ext <;> simp [VtDev.pointer, Pointer.next, axisOf, buttonOf, htype, hdelta]
    · rfl
    · omega
  · have hdelta : wheelDelta ev = 0 := if_neg hwheel
    have hsame : clampWheel (d.wheel + wheelDelta ev) = d.wheel := by
      rw [hdelta, add_zero, clampWheel_of_byte hw]
    have hfits : -2 ^ 31 ≤ d.wheel + wheelDelta ev ∧ d.wheel + wheelDelta ev < 2 ^ 31 := by
      unfold WheelByte at hw
      omega
    rw [if_pos hfits]
    by_cases h1 : ev.type = 1
    · by_cases hleft : ev.code = 0x110
      · refine ⟨{ d with buttons := setButton d.buttons 1 ev.value },
          by simp [vtHandle, h1, hleft], ?_, rfl⟩
        ext <;> simp [VtDev.pointer, Pointer.next, axisOf, buttonOf, h1, hleft, hsame,
          setButton_getElem]
      · by_cases hright : ev.code = 0x111
        · refine ⟨{ d with buttons := setButton d.buttons 2 ev.value },
            by simp [vtHandle, h1, hright], ?_, rfl⟩
          ext <;> simp [VtDev.pointer, Pointer.next, axisOf, buttonOf, h1, hright, hsame,
            setButton_getElem]
        · refine ⟨d, by simp [vtHandle, h1, hleft, hright], ?_, rfl⟩
          ext <;> simp [VtDev.pointer, Pointer.next, axisOf, buttonOf, h1, hleft, hright, hsame]
    · by_cases h3 : ev.type = 3
      · by_cases hx : ev.code = 0
        · refine ⟨{ d with absX := int32 ev.value, moved := true }, by simp [vtHandle, h3, hx], ?_,
            rfl⟩
          ext <;> simp [VtDev.pointer, Pointer.next, axisOf, buttonOf, h3, hx, hsame]
        · by_cases hy : ev.code = 1
          · refine ⟨{ d with absY := int32 ev.value, moved := true }, by simp [vtHandle, h3, hy],
              ?_, rfl⟩
            ext <;> simp [VtDev.pointer, Pointer.next, axisOf, buttonOf, h3, hy, hsame]
          · refine ⟨d, by simp [vtHandle, h3, hx, hy], ?_, rfl⟩
            ext <;> simp [VtDev.pointer, Pointer.next, axisOf, buttonOf, h3, hx, hy, hsame]
      · have hrun : vtHandle d ev = some d := by
          by_cases h2 : ev.type = 2
          · have hcode : ev.code ≠ 8 := fun hcode => hwheel ⟨h2, hcode⟩
            simp [vtHandle, h2, hcode]
          · simp [vtHandle, h1, h2, h3]
        refine ⟨d, hrun, ?_, rfl⟩
        ext <;> simp [VtDev.pointer, Pointer.next, axisOf, buttonOf, h1, h3, hsame]

/-! ## A poll -/

/-- The descriptors that the device has used and the driver has not read. -/
def VtDev.pendingIds (d : VtDev) : List UInt32 := window d.used d.lastUsed d.usedIdx

/-- Their events. -/
def VtDev.pending (d : VtDev) : List VtEvent := d.pendingIds.map d.event

/-- The descriptors offered to a device that has taken those before an index. -/
def VtDev.free (d : VtDev) (taken : VtIndex) : List UInt16 := window d.avail taken d.availIdx

/-- The driver after a poll. -/
structure Polled (taken : VtIndex) (d d' : VtDev) : Prop where
  pointer : d'.pointer = d.pending.foldl Pointer.next d.pointer
  lastUsed : d'.lastUsed = d.usedIdx
  free : d'.free taken = d.free taken ++ d.pendingIds.map UInt32.toUInt16
  availPub : d.availPub = d.availIdx → d'.availPub = d'.availIdx
  used : d'.used = d.used
  usedIdx : d'.usedIdx = d.usedIdx
  events : d'.events = d.events
  maxX : d'.maxX = d.maxX
  maxY : d'.maxY = d.maxY
  ready : d'.ready = d.ready

/-- **A poll handles the pending events in their order and offers every descriptor again.** -/
theorem vtPollLoop_eq (taken : VtIndex) (d : VtDev) (hw : WheelByte d.wheel)
    (hroom : (d.free taken).length + d.pendingIds.length ≤ vtQsize) :
    if WheelFits d.wheel d.pending then
      ∃ d', vtPollLoop d.usedIdx d = some d' ∧ Polled taken d d'
    else vtPollLoop d.usedIdx d = none := by
  generalize hids : d.pendingIds = ids at hroom
  induction ids generalizing d with
  | nil =>
    have hlast : d.lastUsed = d.usedIdx := window_eq_nil_iff.mp hids
    have hpending : d.pending = [] := by rw [VtDev.pending, hids]; rfl
    have hfits : WheelFits d.wheel d.pending := by rw [hpending]; trivial
    rw [if_pos hfits, vtPollLoop, if_pos hlast]
    refine ⟨d, rfl, ?_, hlast, ?_, id, rfl, rfl, rfl, rfl, rfl, rfl⟩
    · rw [hpending]
      rfl
    · rw [hids]
      exact (List.append_nil _).symm
  | cons id ids ih =>
    have hne : d.lastUsed ≠ d.usedIdx := by
      intro heq
      rw [VtDev.pendingIds, heq, window_self] at hids
      cases hids
    have hpop : d.used (slot vtQsize d.lastUsed) :: window d.used (d.lastUsed + 1) d.usedIdx =
        id :: ids :=
      (window_pop hne).symm.trans hids
    obtain ⟨hid, hrest⟩ := List.cons.inj hpop
    have hpending : d.pending = d.event id :: ids.map d.event := by
      rw [VtDev.pending, hids, List.map_cons]
    have hstep := vtHandle_eq (d.event id) hw
    have hloop : vtPollLoop d.usedIdx d = (vtHandle d (d.event id)).bind fun d' =>
        vtPollLoop d.usedIdx (vtOffer { d' with lastUsed := d'.lastUsed + 1 } id.toUInt16) := by
      rw [vtPollLoop, if_neg hne]
      dsimp only
      rw [hid]
      split <;> rename_i heq <;> rw [heq] <;> rfl
    by_cases hone : -2 ^ 31 ≤ d.wheel + wheelDelta (d.event id) ∧
        d.wheel + wheelDelta (d.event id) < 2 ^ 31
    · rw [if_pos hone] at hstep
      obtain ⟨d', hsome, hpointer, hframe⟩ := hstep
      generalize hd : vtOffer { d' with lastUsed := d'.lastUsed + 1 } id.toUInt16 = d1 at hloop
      have husedIdx : d1.usedIdx = d.usedIdx := by rw [← hd, hframe]; rfl
      have hused : d1.used = d.used := by rw [← hd, hframe]; rfl
      have hevents : d1.events = d.events := by rw [← hd, hframe]; rfl
      have hlast : d1.lastUsed = d.lastUsed + 1 := by rw [← hd, hframe]; rfl
      have hptr : d1.pointer = d.pointer.next (d.event id) := by rw [← hpointer, ← hd]; rfl
      have hids1 : d1.pendingIds = ids := by rw [VtDev.pendingIds, hused, husedIdx, hlast, hrest]
      have hlen : (d.free taken).length < vtQsize := by
        rw [List.length_cons] at hroom
        omega
      have hfree : d1.free taken = d.free taken ++ [id.toUInt16] := by
        rw [← hd, hframe]
        exact window_push (by decide) (by decide) _ hlen
      have hwheel : d1.wheel = clampWheel (d.wheel + wheelDelta (d.event id)) :=
        congrArg Pointer.wheel hptr
      have hpending1 : d1.pending = ids.map d.event := by
        rw [VtDev.pending, hids1]
        unfold VtDev.event
        rw [hevents]
      have hroom1 : (d1.free taken).length + ids.length ≤ vtQsize := by
        rw [hfree, List.length_append, List.length_singleton, Nat.add_assoc, Nat.add_comm 1]
        exact hroom
      have ih := ih d1 (hwheel ▸ wheelByte_clampWheel _) hids1 hroom1
      rw [husedIdx, hpending1, hwheel] at ih
      rw [hloop, hsome, Option.bind_some, hd, hpending]
      by_cases hfits : WheelFits (clampWheel (d.wheel + wheelDelta (d.event id))) (ids.map d.event)
      · rw [if_pos hfits] at ih
        obtain ⟨d2, hrun, hp⟩ := ih
        have hall : WheelFits d.wheel (d.event id :: ids.map d.event) := ⟨hone, hfits⟩
        rw [if_pos hall]
        refine ⟨d2, hrun, ?_, hp.lastUsed.trans husedIdx, ?_, ?_, hp.used.trans hused,
          hp.usedIdx.trans husedIdx, hp.events.trans hevents, ?_, ?_, ?_⟩
        · rw [hp.pointer, hpending1, hptr, hpending, List.foldl_cons]
        · rw [hp.free, hfree, hids1, hids, List.map_cons, List.append_assoc, List.singleton_append]
        · intro _
          exact hp.availPub (by rw [← hd]; rfl)
        · rw [hp.maxX, ← hd, hframe]
          rfl
        · rw [hp.maxY, ← hd, hframe]
          rfl
        · rw [hp.ready, ← hd, hframe]
          rfl
      · rw [if_neg hfits] at ih
        have hall : ¬WheelFits d.wheel (d.event id :: ids.map d.event) := fun h => hfits h.2
        rw [if_neg hall]
        exact ih
    · rw [if_neg hone] at hstep
      have hall : ¬WheelFits d.wheel d.pending := by
        rw [hpending]
        exact fun h => hone h.1
      rw [if_neg hall, hloop, hstep]
      rfl

end ZealBringup.Input
