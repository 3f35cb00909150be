import Mathlib.Data.List.Range
import Mathlib.Data.Nat.Notation
import Mathlib.Tactic.Common
import ZealBringup.Lib.Presses

/-!
# The boot keyboard and its key events

`usb_keyboard_report`, the keyboard of `usb_release_device` and the auto-repeat of `usb_poll`, of
`usb_xhci.h`, and `usb_hid_key` of `usb_hid.h`.

What a report, a release and the auto-repeat emit for one usage.

* `Keyboard` — the fields of an endpoint that they read and write.
* `KeyEvent` — a call of `emit_key` and the usage it is about.
* `usbKeyboardReport`, `usbReleaseDevice`, `usbRepeat` — the functions, with their events.
* `keyEdges` — the presses and releases of a usage among some events.
* `keyEdges_report`, `keyEdges_release` — those of an accepted report and of a release.
* `usbKeyboardReport_repeat` — the key that repeats is in the report.
-/

namespace ZealBringup.Usb

/-! ## Key codes -/

def hidLetters : List ℕ :=
  [30, 48, 46, 32, 18, 33, 34, 35, 23, 36, 37, 38, 50, 49, 24, 25, 16, 19, 31, 20, 22, 47, 17, 45,
   21, 44]

def hidRest : List ℕ :=
  [11, 28, 1, 14, 15, 57, 12, 13, 26, 27, 43, 0, 39, 40, 41, 51, 52, 53, 58,
   59, 60, 61, 62, 63, 64, 65, 66, 67, 68, 87, 88, 99, 70, 119, 110, 102, 104, 111, 107, 109, 106,
   105, 108, 103]

/-- The key code of a usage, 0 for none. -/
def usbHidKey (usage : ℕ) : ℕ :=
  if usage ≥ 4 ∧ usage ≤ 29 then hidLetters.getD (usage - 4) 0
  else if usage ≥ 30 ∧ usage ≤ 38 then usage - 28
  else if usage ≥ 39 ∧ usage < 39 + hidRest.length then hidRest.getD (usage - 39) 0
  else if usage = 224 then 29
  else if usage = 225 then 42
  else if usage = 226 then 56
  else if usage = 227 then 125
  else if usage = 228 then 97
  else if usage = 229 then 54
  else if usage = 230 then 100
  else if usage = 231 then 126
  else 0

/-! ## State -/

/-- A key event, with the usage it comes from. -/
structure KeyEvent where
  usage : ℕ
  code : ℕ
  down : Bool
  deriving DecidableEq

/-- A keyboard endpoint; `owner` says that it is `g_usb.keyboard`. -/
structure Keyboard where
  owner : Bool
  active : Bool
  previous : List UInt8
  repeatUsage : ℕ
  repeatAt : ℕ
  deriving DecidableEq

/-- A byte of a report. -/
def slot (report : List UInt8) (i : ℕ) : ℕ := (report.getD i 0).toNat

/-- The indices of the six keys of a report. -/
def keySlots : List ℕ := List.range' 2 6

/-! ## Functions -/

def usbReportHas (report : List UInt8) (usage : ℕ) : Bool :=
  keySlots.any fun i => slot report i = usage

/-- The event of a key, if it has a code. -/
def usbKey (usage : ℕ) (down : Bool) : List KeyEvent :=
  if usbHidKey usage ≠ 0 then [⟨usage, usbHidKey usage, down⟩] else []

/-- A changed modifier bit. -/
def changeModifier (previous report : List UInt8) (i : ℕ) : List KeyEvent :=
  if (slot report 0 ^^^ slot previous 0).testBit i then
    usbKey (224 + i) ((slot report 0).testBit i)
  else []

/-- A round of the loop over the keys of the last report. -/
def releaseSlot (report : List UInt8) (st : Keyboard × List KeyEvent) (i : ℕ) :
    Keyboard × List KeyEvent :=
  let usage := slot st.1.previous i
  if usage ≠ 0 ∧ usbReportHas report usage = false then
    ({ st.1 with repeatUsage := if st.1.repeatUsage = usage then 0 else st.1.repeatUsage },
      st.2 ++ usbKey usage false)
  else st

/-- A round of the loop over the keys of the report; `repeatAt` is `usb_deadline(400)`. -/
def pressSlot (report : List UInt8) (repeatAt : ℕ) (st : Keyboard × List KeyEvent) (i : ℕ) :
    Keyboard × List KeyEvent :=
  let usage := slot report i
  if usage ≠ 0 ∧ usbReportHas st.1.previous usage = false then
    let duplicate := (List.range' 2 (i - 2)).any fun j => slot report j = usage
    if duplicate then st
    else
      ({ st.1 with repeatUsage := usage, repeatAt := repeatAt }, st.2 ++ usbKey usage true)
  else st

/-- A rollover code in one of the slots. -/
def rollover (report : List UInt8) : Bool :=
  keySlots.any fun i => slot report i ≠ 0 ∧ slot report i < 4

/-- `usb_keyboard_report`, for a report of `report.length` bytes. -/
def usbKeyboardReport (repeatAt : ℕ) (ep : Keyboard) (report : List UInt8) :
    Keyboard × List KeyEvent :=
  if report.length < 8 ∨ ep.owner = false then (ep, [])
  else if rollover report then (ep, [])
  else
    let modifiers := (List.range 8).flatMap (changeModifier ep.previous report)
    let released := keySlots.foldl (releaseSlot report) (ep, modifiers)
    let done := keySlots.foldl (pressSlot report repeatAt) released
    ({ done.1 with previous := report.take 8 }, done.2)

/-- The keyboard endpoint in `usb_release_device`. -/
def usbReleaseDevice (ep : Keyboard) : Keyboard × List KeyEvent :=
  let keys :=
    if ep.owner then
      ((List.range 8).flatMap fun bit =>
        if (slot ep.previous 0).testBit bit then usbKey (224 + bit) false else []) ++
      keySlots.flatMap fun k =>
        if slot ep.previous k ≠ 0 then usbKey (slot ep.previous k) false else []
    else []
  ({ ep with owner := false, active := false, repeatUsage := 0 }, keys)

/-- The auto-repeat of `usb_poll`; `repeatAt` is `usb_deadline(35)`. -/
def usbRepeat (now repeatAt : ℕ) (ep : Keyboard) : Keyboard × List KeyEvent :=
  if (ep.owner ∧ ep.active) ∧ ep.repeatUsage ≠ 0 ∧ now ≥ ep.repeatAt then
    ({ ep with repeatAt := repeatAt }, usbKey ep.repeatUsage true)
  else (ep, [])

open Presses

/-! ## The key events of a step -/

/-- A report that is not ignored. -/
def Accepts (ep : Keyboard) (report : List UInt8) : Prop :=
  ¬(report.length < 8 ∨ ep.owner = false) ∧ ¬rollover report = true

instance (ep : Keyboard) (report : List UInt8) : Decidable (Accepts ep report) :=
  inferInstanceAs (Decidable (_ ∧ _))

/-- The usage and the direction of an event. -/
def KeyEvent.edge (e : KeyEvent) : ℕ × Bool := (e.usage, e.down)

@[simp] theorem KeyEvent.edge_mk (usage code : ℕ) (down : Bool) :
    (⟨usage, code, down⟩ : KeyEvent).edge = (usage, down) := rfl

/-- The modifier of a usage in a report. -/
def modifierDown (report : List UInt8) (u : ℕ) : Prop :=
  224 ≤ u ∧ u < 232 ∧ (slot report 0).testBit (u - 224) = true

instance (report : List UInt8) (u : ℕ) : Decidable (modifierDown report u) :=
  inferInstanceAs (Decidable (_ ∧ _))

/-- How many slots of a report have a usage. -/
def slotCount (report : List UInt8) (u : ℕ) : ℕ := keySlots.countP fun i => slot report i = u

/-! ## The loops -/

variable {ep : Keyboard} {previous report : List UInt8} {keys : List KeyEvent} {u i k : ℕ}
  {repeatAt : ℕ} {is : List ℕ}

/-- The release in a round. -/
def releasedAt (previous report : List UInt8) (i : ℕ) : List KeyEvent :=
  if slot previous i ≠ 0 ∧ usbReportHas report (slot previous i) = false then
    usbKey (slot previous i) false
  else []

/-- The press in a round. -/
def pressedAt (previous report : List UInt8) (i : ℕ) : List KeyEvent :=
  if slot report i ≠ 0 ∧ usbReportHas previous (slot report i) = false ∧
      ((List.range' 2 (i - 2)).any fun j => slot report j = slot report i) = false then
    usbKey (slot report i) true
  else []

theorem releaseSlot_snd (report : List UInt8) (st : Keyboard × List KeyEvent) (i : ℕ) :
    (releaseSlot report st i).2 = st.2 ++ releasedAt st.1.previous report i := by
  rw [releaseSlot, releasedAt]
  dsimp only
  split
  · rfl
  · rw [List.append_nil]

theorem releaseSlot_previous (report : List UInt8) (st : Keyboard × List KeyEvent) (i : ℕ) :
    (releaseSlot report st i).1.previous = st.1.previous ∧
      (releaseSlot report st i).1.owner = st.1.owner := by
  rw [releaseSlot]
  dsimp only
  split <;> exact ⟨rfl, rfl⟩

theorem pressSlot_snd (report : List UInt8) (repeatAt : ℕ) (st : Keyboard × List KeyEvent)
    (i : ℕ) :
    (pressSlot report repeatAt st i).2 = st.2 ++ pressedAt st.1.previous report i := by
  rw [pressSlot, pressedAt]
  dsimp only
  by_cases hnew : slot report i ≠ 0 ∧ usbReportHas st.1.previous (slot report i) = false
  · rw [if_pos hnew]
    cases hdup : (List.range' 2 (i - 2)).any fun j => slot report j = slot report i with
    | false => rw [if_neg Bool.false_ne_true, if_pos ⟨hnew.1, hnew.2, rfl⟩]
    | true => rw [if_pos rfl, if_neg (fun h => absurd h.2.2 (by decide)), List.append_nil]
  · rw [if_neg hnew, if_neg (fun h => hnew ⟨h.1, h.2.1⟩), List.append_nil]

theorem pressSlot_previous (report : List UInt8) (repeatAt : ℕ) (st : Keyboard × List KeyEvent)
    (i : ℕ) :
    (pressSlot report repeatAt st i).1.previous = st.1.previous ∧
      (pressSlot report repeatAt st i).1.owner = st.1.owner := by
  rw [pressSlot]
  dsimp only
  split
  · split <;> exact ⟨rfl, rfl⟩
  · exact ⟨rfl, rfl⟩

/-- A loop whose rounds only add events and keep the last report. -/
theorem foldl_rounds {f : Keyboard × List KeyEvent → ℕ → Keyboard × List KeyEvent}
    {g : List UInt8 → ℕ → List KeyEvent}
    (hsnd : ∀ st i, (f st i).2 = st.2 ++ g st.1.previous i)
    (hfst : ∀ st i, (f st i).1.previous = st.1.previous ∧ (f st i).1.owner = st.1.owner)
    (is : List ℕ) (st : Keyboard × List KeyEvent) :
    (is.foldl f st).2 = st.2 ++ is.flatMap (g st.1.previous) ∧
      (is.foldl f st).1.previous = st.1.previous ∧ (is.foldl f st).1.owner = st.1.owner := by
  induction is generalizing st with
  | nil => exact ⟨(List.append_nil _).symm, rfl, rfl⟩
  | cons i is ih =>
    obtain ⟨hkeys, hprevious, howner⟩ := ih (f st i)
    obtain ⟨hprevious', howner'⟩ := hfst st i
    refine ⟨?_, hprevious.trans hprevious', howner.trans howner'⟩
    rw [List.foldl_cons, hkeys, hsnd, hprevious', List.flatMap_cons, List.append_assoc]

theorem releaseSlots_rounds (report : List UInt8) (st : Keyboard × List KeyEvent) :
    (keySlots.foldl (releaseSlot report) st).2 =
        st.2 ++ keySlots.flatMap (releasedAt st.1.previous report) ∧
      (keySlots.foldl (releaseSlot report) st).1.previous = st.1.previous ∧
      (keySlots.foldl (releaseSlot report) st).1.owner = st.1.owner :=
  foldl_rounds (g := fun previous => releasedAt previous report) (releaseSlot_snd report)
    (releaseSlot_previous report) keySlots st

theorem pressSlots_rounds (report : List UInt8) (repeatAt : ℕ) (st : Keyboard × List KeyEvent) :
    (keySlots.foldl (pressSlot report repeatAt) st).2 =
        st.2 ++ keySlots.flatMap (pressedAt st.1.previous report) ∧
      (keySlots.foldl (pressSlot report repeatAt) st).1.previous = st.1.previous ∧
      (keySlots.foldl (pressSlot report repeatAt) st).1.owner = st.1.owner :=
  foldl_rounds (g := fun previous => pressedAt previous report) (pressSlot_snd report repeatAt)
    (pressSlot_previous report repeatAt) keySlots st

/-! ## The edges of a usage -/

/-- The presses and releases of a usage among some events. -/
def keyEdges (u : ℕ) (keys : List KeyEvent) : List Bool := edges u (keys.map KeyEvent.edge)

@[simp] theorem keyEdges_nil : keyEdges u [] = [] := rfl

@[simp] theorem keyEdges_append (keys keys' : List KeyEvent) :
    keyEdges u (keys ++ keys') = keyEdges u keys ++ keyEdges u keys' := by
  simp [keyEdges]

theorem keyEdges_usbKey (u usage : ℕ) (down : Bool) :
    keyEdges u (usbKey usage down) = if usage = u ∧ usbHidKey u ≠ 0 then [down] else [] := by
  rw [keyEdges, usbKey]
  by_cases hcode : usbHidKey usage ≠ 0
  · rw [if_pos hcode, List.map_singleton, KeyEvent.edge_mk, edges_singleton]
    by_cases hu : usage = u
    · subst hu
      rw [if_pos rfl, if_pos ⟨rfl, hcode⟩]
    · rw [if_neg hu, if_neg (fun h => hu h.1)]
  · have hnone : ¬(usage = u ∧ usbHidKey u ≠ 0) := fun ⟨hu, hu0⟩ => hcode (hu ▸ hu0)
    rw [if_neg hcode, if_neg hnone]
    rfl

/-- A loop whose rounds are about one usage each. -/
theorem keyEdges_range {g : ℕ → List KeyEvent} {l : ℕ → List Bool} (base : ℕ)
    (hg : ∀ i, keyEdges u (g i) = if base + i = u then l i else []) (k : ℕ) :
    keyEdges u ((List.range k).flatMap g) =
      if base ≤ u ∧ u < base + k then l (u - base) else [] := by
  rw [keyEdges, List.map_flatMap]
  exact edges_range base hg k

theorem usbHidKey_zero : usbHidKey 0 = 0 := rfl

/-- A loop that releases the slots of a report whose usage has a property. -/
theorem keyEdges_releases (previous : List UInt8) (P : ℕ → Bool) (hcode : usbHidKey u ≠ 0)
    (is : List ℕ) :
    keyEdges u (is.flatMap fun i =>
        if slot previous i ≠ 0 ∧ P (slot previous i) = true then usbKey (slot previous i) false
        else []) =
      if P u = true then List.replicate (is.countP fun i => slot previous i = u) false else [] := by
  induction is with
  | nil => simp
  | cons i is ih =>
    rw [List.flatMap_cons, keyEdges_append, ih, List.countP_cons]
    by_cases hu : slot previous i = u
    · have hu0 : slot previous i ≠ 0 := fun h => hcode (by rw [← hu, h, usbHidKey_zero])
      rw [hu] at hu0 ⊢
      by_cases hP : P u = true
      · rw [if_pos ⟨hu0, hP⟩, if_pos hP, if_pos hP, keyEdges_usbKey, if_pos ⟨rfl, hcode⟩,
          decide_eq_true rfl, if_pos rfl, List.replicate_succ, List.singleton_append]
      · rw [if_neg (fun h => hP h.2), if_neg hP, if_neg hP, keyEdges_nil, List.nil_append]
    · have hskip : keyEdges u (if slot previous i ≠ 0 ∧ P (slot previous i) = true then
          usbKey (slot previous i) false else []) = [] := by
        split
        · rw [keyEdges_usbKey, if_neg (fun h => hu h.1)]
        · rfl
      rw [hskip, List.nil_append, decide_eq_false hu, if_neg Bool.false_ne_true, Nat.add_zero]

/-- The presses of a usage: one, for a usage that is new. -/
theorem keyEdges_presses (hcode : usbHidKey u ≠ 0) (k : ℕ) :
    keyEdges u ((List.range' 2 k).flatMap (pressedAt previous report)) =
      if usbReportHas previous u = false ∧
          ((List.range' 2 k).any fun i => slot report i = u) = true then [true]
      else [] := by
  induction k with
  | zero => simp
  | succ k ih =>
    rw [List.range'_1_concat, List.flatMap_append, List.flatMap_singleton, keyEdges_append, ih,
      List.any_append, pressedAt, Nat.add_sub_cancel_left]
    by_cases hu : slot report (2 + k) = u
    · have hu0 : u ≠ 0 := fun h => hcode (by rw [h, usbHidKey_zero])
      rw [hu]
      cases usbReportHas previous u <;>
        cases (List.range' 2 k).any fun i => slot report i = u <;>
          simp [hu0, hu, keyEdges_usbKey, hcode]
    · have hskip : keyEdges u (if slot report (2 + k) ≠ 0 ∧
          usbReportHas previous (slot report (2 + k)) = false ∧
          ((List.range' 2 k).any fun j => slot report j = slot report (2 + k)) = false then
          usbKey (slot report (2 + k)) true else []) = [] := by
        split
        · rw [keyEdges_usbKey, if_neg (fun h => hu h.1)]
        · rfl
      have hlast : ([2 + k].any fun i => decide (slot report i = u)) = false := by simp [hu]
      rw [hskip, List.append_nil, hlast, Bool.or_false]

/-! ## One step -/

theorem keyEdges_modifiers (hcode : usbHidKey u ≠ 0) :
    keyEdges u ((List.range 8).flatMap (changeModifier previous report)) =
      if modifierDown report u ↔ modifierDown previous u then []
      else [decide (modifierDown report u)] := by
  rw [keyEdges_range (l := fun i =>
    if (slot report 0 ^^^ slot previous 0).testBit i then [(slot report 0).testBit i] else []) 224]
  · by_cases hu : 224 ≤ u ∧ u < 224 + 8
    · have hreport : modifierDown report u ↔ (slot report 0).testBit (u - 224) = true :=
        ⟨fun h => h.2.2, fun h => ⟨hu.1, hu.2, h⟩⟩
      have hprevious : modifierDown previous u ↔ (slot previous 0).testBit (u - 224) = true :=
        ⟨fun h => h.2.2, fun h => ⟨hu.1, hu.2, h⟩⟩
      rw [if_pos hu, Nat.testBit_xor]
      simp only [hreport, hprevious]
      cases (slot report 0).testBit (u - 224) <;> cases (slot previous 0).testBit (u - 224) <;> rfl
    · have hnot : ∀ r, ¬modifierDown r u := fun r h => hu ⟨h.1, h.2.1⟩
      rw [if_neg hu, if_pos (by simp [hnot])]
  · intro i
    rw [changeModifier]
    by_cases hi : 224 + i = u
    · rw [if_pos hi]
      split
      · rw [keyEdges_usbKey, if_pos ⟨hi, hcode⟩]
      · rfl
    · rw [if_neg hi]
      split
      · rw [keyEdges_usbKey, if_neg (fun h => hi h.1)]
      · rfl

/-- The modifiers that a release lets go. -/
theorem keyEdges_modifiers_release (hcode : usbHidKey u ≠ 0) :
    keyEdges u ((List.range 8).flatMap fun bit =>
        if (slot previous 0).testBit bit then usbKey (224 + bit) false else []) =
      if modifierDown previous u then [false] else [] := by
  rw [keyEdges_range (l := fun i => if (slot previous 0).testBit i then [false] else []) 224]
  · by_cases hu : 224 ≤ u ∧ u < 224 + 8
    · have hprevious : modifierDown previous u ↔ (slot previous 0).testBit (u - 224) = true :=
        ⟨fun h => h.2.2, fun h => ⟨hu.1, hu.2, h⟩⟩
      rw [if_pos hu]
      simp only [hprevious]
    · rw [if_neg hu, if_neg (fun h => hu ⟨h.1, h.2.1⟩)]
  · intro i
    by_cases hi : 224 + i = u
    · rw [if_pos hi]
      split
      · rw [keyEdges_usbKey, if_pos ⟨hi, hcode⟩]
      · rfl
    · rw [if_neg hi]
      split
      · rw [keyEdges_usbKey, if_neg (fun h => hi h.1)]
      · rfl

theorem usbKeyboardReport_keys (h : Accepts ep report) :
    (usbKeyboardReport repeatAt ep report).2 =
      (List.range 8).flatMap (changeModifier ep.previous report) ++
        keySlots.flatMap (releasedAt ep.previous report) ++
        keySlots.flatMap (pressedAt ep.previous report) := by
  rw [usbKeyboardReport, if_neg h.1, if_neg h.2]
  dsimp only
  obtain ⟨hreleased, hprevious, -⟩ := releaseSlots_rounds report
    (ep, (List.range 8).flatMap (changeModifier ep.previous report))
  rw [(pressSlots_rounds report repeatAt _).1, hreleased, hprevious]

theorem usbKeyboardReport_of_not_accepts (h : ¬Accepts ep report) :
    usbKeyboardReport repeatAt ep report = (ep, []) := by
  rw [usbKeyboardReport]
  by_cases hshort : report.length < 8 ∨ ep.owner = false
  · rw [if_pos hshort]
  · rw [if_neg hshort, if_pos (not_not.1 fun hroll => h ⟨hshort, hroll⟩)]

theorem keyEdges_report (hcode : usbHidKey u ≠ 0) (h : Accepts ep report) :
    keyEdges u (usbKeyboardReport repeatAt ep report).2 =
      (if modifierDown report u ↔ modifierDown ep.previous u then []
        else [decide (modifierDown report u)]) ++
      (if usbReportHas report u = false then List.replicate (slotCount ep.previous u) false
        else []) ++
      (if usbReportHas ep.previous u = false ∧ usbReportHas report u = true then [true]
        else []) := by
  have hreleases := keyEdges_releases ep.previous (fun usage => !usbReportHas report usage) hcode
    keySlots
  simp only [Bool.not_eq_true'] at hreleases
  have hreleased : keyEdges u (keySlots.flatMap (releasedAt ep.previous report)) = _ := hreleases
  have hpressed : keyEdges u (keySlots.flatMap (pressedAt ep.previous report)) = _ :=
    keyEdges_presses hcode 6
  rw [usbKeyboardReport_keys h, keyEdges_append, keyEdges_append, keyEdges_modifiers hcode,
    hreleased, hpressed]
  rfl

theorem keyEdges_release (hcode : usbHidKey u ≠ 0) (howner : ep.owner = true) :
    keyEdges u (usbReleaseDevice ep).2 =
      (if modifierDown ep.previous u then [false] else []) ++
        List.replicate (slotCount ep.previous u) false := by
  have hreleases := keyEdges_releases ep.previous (fun _ => true) hcode keySlots
  simp only [and_true, if_true] at hreleases
  rw [usbReleaseDevice]
  dsimp only
  rw [if_pos howner, keyEdges_append, keyEdges_modifiers_release hcode, hreleases]
  rfl

/-- A usage without a key code has no events. -/
theorem keyEdges_of_no_code (hcode : ¬usbHidKey u ≠ 0) (h : ∀ e ∈ keys, usbHidKey e.usage ≠ 0) :
    keyEdges u keys = [] := by
  refine edges_eq_nil fun e he => ?_
  obtain ⟨e, he', rfl⟩ := List.mem_map.1 he
  exact fun hu => hcode (hu ▸ h e he')

theorem usbKey_coded {usage : ℕ} {down : Bool} :
    ∀ e ∈ usbKey usage down, usbHidKey e.usage ≠ 0 := by
  intro e he
  rw [usbKey] at he
  split at he
  · next hcode =>
    rw [List.mem_singleton.1 he]
    exact hcode
  · exact absurd he List.not_mem_nil

theorem ite_coded {P : Prop} [Decidable P] (h : ∀ e ∈ keys, usbHidKey e.usage ≠ 0) :
    ∀ e ∈ (if P then keys else []), usbHidKey e.usage ≠ 0 := by
  split
  · exact h
  · exact fun e he => absurd he List.not_mem_nil

theorem flatMap_coded {g : ℕ → List KeyEvent} (h : ∀ i, ∀ e ∈ g i, usbHidKey e.usage ≠ 0)
    (is : List ℕ) : ∀ e ∈ is.flatMap g, usbHidKey e.usage ≠ 0 := by
  intro e he
  obtain ⟨i, -, he'⟩ := List.mem_flatMap.1 he
  exact h i e he'

theorem append_coded {keys' : List KeyEvent} (h : ∀ e ∈ keys, usbHidKey e.usage ≠ 0)
    (h' : ∀ e ∈ keys', usbHidKey e.usage ≠ 0) : ∀ e ∈ keys ++ keys', usbHidKey e.usage ≠ 0 :=
  fun e he => (List.mem_append.1 he).elim (h e) (h' e)

/-- All events are those of usages with a key code. -/
theorem usbKeyboardReport_coded :
    ∀ e ∈ (usbKeyboardReport repeatAt ep report).2, usbHidKey e.usage ≠ 0 := by
  by_cases h : Accepts ep report
  · rw [usbKeyboardReport_keys h]
    exact append_coded (append_coded (flatMap_coded (fun _ => ite_coded usbKey_coded) _)
      (flatMap_coded (fun _ => ite_coded usbKey_coded) _))
      (flatMap_coded (fun _ => ite_coded usbKey_coded) _)
  · rw [usbKeyboardReport_of_not_accepts h]
    exact fun e he => absurd he List.not_mem_nil

theorem usbReleaseDevice_coded : ∀ e ∈ (usbReleaseDevice ep).2, usbHidKey e.usage ≠ 0 :=
  ite_coded (append_coded (flatMap_coded (fun _ => ite_coded usbKey_coded) _)
    (flatMap_coded (fun _ => ite_coded usbKey_coded) _))

/-! ## The auto-repeat -/

theorem usbReportHas_slot (hi : i ∈ keySlots) : usbReportHas report (slot report i) = true :=
  List.any_eq_true.2 ⟨i, hi, decide_eq_true rfl⟩

/-- The releases stop the auto-repeat of a usage that is gone. -/
theorem releaseSlots_repeat (report : List UInt8) (is : List ℕ) (st : Keyboard × List KeyEvent) :
    (is.foldl (releaseSlot report) st).1.repeatUsage = 0 ∨
      ((is.foldl (releaseSlot report) st).1.repeatUsage = st.1.repeatUsage ∧
        ∀ i ∈ is, slot st.1.previous i = st.1.repeatUsage →
          usbReportHas report st.1.repeatUsage = true) := by
  induction is generalizing st with
  | nil => exact .inr ⟨rfl, fun i hi => absurd hi List.not_mem_nil⟩
  | cons i is ih =>
    rw [List.foldl_cons]
    obtain hzero | ⟨hsame, hall⟩ := ih (releaseSlot report st i)
    · exact .inl hzero
    rw [(releaseSlot_previous report st i).1] at hall
    by_cases hgone : slot st.1.previous i ≠ 0 ∧ usbReportHas report (slot st.1.previous i) = false
    · by_cases hi : st.1.repeatUsage = slot st.1.previous i
      · left
        rw [hsame, releaseSlot, if_pos hgone]
        exact if_pos hi
      · have hkeep : (releaseSlot report st i).1.repeatUsage = st.1.repeatUsage := by
          rw [releaseSlot, if_pos hgone]
          exact if_neg hi
        rw [hkeep] at hsame hall
        refine .inr ⟨hsame, fun j hj hslot => ?_⟩
        rcases List.mem_cons.1 hj with rfl | hj
        · exact absurd hslot.symm hi
        · exact hall j hj hslot
    · have hkeep : releaseSlot report st i = st := by rw [releaseSlot, if_neg hgone]
      rw [hkeep] at hsame hall ⊢
      by_cases hzero : st.1.repeatUsage = 0
      · exact .inl (hsame.trans hzero)
      · refine .inr ⟨hsame, fun j hj hslot => ?_⟩
        rcases List.mem_cons.1 hj with rfl | hj
        · rw [hslot] at hgone
          simpa [hzero] using hgone
        · exact hall j hj hslot

/-- The presses repeat a usage of the report. -/
theorem pressSlots_repeat (report : List UInt8) (repeatAt : ℕ) {is : List ℕ} (his : is ⊆ keySlots)
    (st : Keyboard × List KeyEvent) :
    (is.foldl (pressSlot report repeatAt) st).1.repeatUsage = st.1.repeatUsage ∨
      usbReportHas report (is.foldl (pressSlot report repeatAt) st).1.repeatUsage = true := by
  induction is generalizing st with
  | nil => exact .inl rfl
  | cons i is ih =>
    rw [List.foldl_cons]
    obtain hsame | hin := ih (fun j hj => his (List.mem_cons_of_mem i hj))
      (pressSlot report repeatAt st i)
    · rw [hsame, pressSlot]
      dsimp only
      split
      · split
        · exact .inl rfl
        · exact .inr (usbReportHas_slot (his (List.mem_cons_self ..)))
      · exact .inl rfl
    · exact .inr hin

/-- The key that repeats is in the report, if it was in the last one. -/
theorem usbKeyboardReport_repeat (repeatAt : ℕ) (h : Accepts ep report)
    (hrepeat : ep.repeatUsage = 0 ∨ usbReportHas ep.previous ep.repeatUsage = true) :
    (usbKeyboardReport repeatAt ep report).1.repeatUsage = 0 ∨
      usbReportHas report (usbKeyboardReport repeatAt ep report).1.repeatUsage = true := by
  rw [usbKeyboardReport, if_neg h.1, if_neg h.2]
  dsimp only
  obtain hsame | hin := pressSlots_repeat report repeatAt (List.Subset.refl keySlots)
    (keySlots.foldl (releaseSlot report)
      (ep, (List.range 8).flatMap (changeModifier ep.previous report)))
  · rw [hsame]
    obtain hzero | ⟨hsame', hall⟩ := releaseSlots_repeat report keySlots
      (ep, (List.range 8).flatMap (changeModifier ep.previous report))
    · exact .inl hzero
    · rw [hsame']
      rcases hrepeat with hzero | hhas
      · exact .inl hzero
      · obtain ⟨i, hi, hslot⟩ := List.any_eq_true.1 hhas
        exact .inr (hall i hi (of_decide_eq_true hslot))
  · exact .inr hin

end ZealBringup.Usb
