import Mathlib.Data.List.Chain
import ZealBringup.Usb.Balance

/-!
# The two decoders of a boot keyboard

`pi4_usb_keyboard_decode` of `pi4_usb_keyboard.h` beside `usb_keyboard_report`, at the level of usages:
what the one passes to `emit` and the other to `usb_key`.

* `pi4UsbKeyboardDecode` — the decoder of the Pi.
* `usbStep` — the other decoder; `usbKeyboardReport_step` ties it to `usb_keyboard_report`.
* `DecodersAgree` — the decoders emit the same, in turns, and leave the keys of the last report down.
* `decoders_agree_iff` — they do exactly on the reports without three kinds of repetition.
-/

namespace ZealBringup.Usb

open Presses

/-- A usage and its direction: the arguments of `emit` and of `usb_key`. -/
abbrev KeyCall := ℕ × Bool

/-! ## The decoder of the Pi -/

/-- `pi4_usb_keyboard_has` -/
def pi4UsbKeyboardHas (report : List UInt8) (usage : ℕ) : Bool :=
  keySlots.any fun i => slot report i = usage

/-- `earlier`: the usage of a slot is in a slot before it. -/
def earlier (report : List UInt8) (i : ℕ) : Bool :=
  (List.range' 2 (i - 2)).any fun j => slot report j = slot report i

/-- A modifier bit that changes. -/
def modifierCall (previous report : List UInt8) (i : ℕ) : List KeyCall :=
  if (slot report 0 ^^^ slot previous 0).testBit i then [(224 + i, (slot report 0).testBit i)] else []

/-- A round of the loop over the keys that are released. -/
def pi4ReleaseCall (previous report : List UInt8) (i : ℕ) : List KeyCall :=
  if (slot previous i ≠ 0 ∧ pi4UsbKeyboardHas report (slot previous i) = false) ∧
      earlier previous i = false then
    [(slot previous i, false)]
  else []

/-- A round of the loop over the keys that are pressed. -/
def pi4PressCall (previous report : List UInt8) (i : ℕ) : List KeyCall :=
  if (slot report i ≠ 0 ∧ pi4UsbKeyboardHas previous (slot report i) = false) ∧
      earlier report i = false then
    [(slot report i, true)]
  else []

/-- `pi4_usb_keyboard_decode`: what it returns, the report that it keeps and its calls of `emit`. -/
def pi4UsbKeyboardDecode (previous report : List UInt8) (bytes : ℕ) : ℤ × List UInt8 × List KeyCall :=
  if bytes ≠ 8 then (-1, previous, [])
  else if rollover report then (0, previous, [])
  else
    (1, report.take 8,
      keySlots.flatMap (pi4ReleaseCall previous report) ++
        (List.range 8).flatMap (modifierCall previous report) ++
        keySlots.flatMap (pi4PressCall previous report))

/-! ## The other decoder -/

/-- A key that is released, once for every slot that had it. -/
def usbReleaseCall (previous report : List UInt8) (i : ℕ) : List KeyCall :=
  if slot previous i ≠ 0 ∧ usbReportHas report (slot previous i) = false then
    [(slot previous i, false)]
  else []

/-- A key that is pressed. -/
def usbPressCall (previous report : List UInt8) (i : ℕ) : List KeyCall :=
  if (slot report i ≠ 0 ∧ usbReportHas previous (slot report i) = false) ∧ earlier report i = false then
    [(slot report i, true)]
  else []

/-- The calls of `usb_key` in `usb_keyboard_report`. -/
def usbKeyCalls (previous report : List UInt8) : List KeyCall :=
  (List.range 8).flatMap (modifierCall previous report) ++
    keySlots.flatMap (usbReleaseCall previous report) ++
    keySlots.flatMap (usbPressCall previous report)

/-- What a call of `usb_key` emits. -/
def KeyCall.emitted (call : KeyCall) : List KeyEvent := usbKey call.1 call.2

theorem flatMap_emitted {f : ℕ → List KeyCall} {g : ℕ → List KeyEvent}
    (h : ∀ i, (f i).flatMap KeyCall.emitted = g i) (is : List ℕ) :
    (is.flatMap f).flatMap KeyCall.emitted = is.flatMap g := by
  rw [List.flatMap_assoc]
  exact List.flatMap_congr fun i _ => h i

/-- **The events of `usb_keyboard_report`** are those of its calls of `usb_key`. -/
theorem usbKeyboardReport_calls {ep : Keyboard} {report : List UInt8} (repeatAt : ℕ)
    (h : Accepts ep report) :
    (usbKeyboardReport repeatAt ep report).2 =
      (usbKeyCalls ep.previous report).flatMap KeyCall.emitted := by
  have hmodifier : ∀ i, (modifierCall ep.previous report i).flatMap KeyCall.emitted =
      changeModifier ep.previous report i := by
    intro i
    rw [modifierCall, changeModifier]
    split
    · exact List.flatMap_singleton ..
    · rfl
  have hrelease : ∀ i, (usbReleaseCall ep.previous report i).flatMap KeyCall.emitted =
      releasedAt ep.previous report i := by
    intro i
    rw [usbReleaseCall, releasedAt]
    split
    · exact List.flatMap_singleton ..
    · rfl
  have hpress : ∀ i, (usbPressCall ep.previous report i).flatMap KeyCall.emitted =
      pressedAt ep.previous report i := by
    intro i
    rw [usbPressCall, pressedAt]
    simp only [and_assoc, earlier]
    split
    · exact List.flatMap_singleton ..
    · rfl
  rw [usbKeyboardReport_keys h, usbKeyCalls, List.flatMap_append, List.flatMap_append,
    flatMap_emitted hmodifier, flatMap_emitted hrelease, flatMap_emitted hpress]

/-! ## Runs -/

/-- A report of eight bytes. -/
abbrev BootReport := {report : List UInt8 // report.length = 8}

/-- The report of a keyboard without a key down. -/
def released : BootReport := ⟨List.replicate 8 0, rfl⟩

/-- One report at the Pi: the report that is kept and the calls. -/
def piStep (previous : List UInt8) (report : BootReport) : List UInt8 × List KeyCall :=
  (pi4UsbKeyboardDecode previous report 8).2

/-- One report at the owner of the other driver. -/
def usbStep (previous : List UInt8) (report : BootReport) : List UInt8 × List KeyCall :=
  if rollover report then (previous, []) else (report.1.take 8, usbKeyCalls previous report)

/-- **One report at the owner** is what `usb_keyboard_report` does with it. -/
theorem usbKeyboardReport_step {ep : Keyboard} (howner : ep.owner = true) (repeatAt : ℕ)
    (report : BootReport) :
    (usbKeyboardReport repeatAt ep report.1).1.previous = (usbStep ep.previous report).1 ∧
      (usbKeyboardReport repeatAt ep report.1).2 =
        (usbStep ep.previous report).2.flatMap KeyCall.emitted := by
  have hlong : ¬(report.1.length < 8 ∨ ep.owner = false) := by
    rw [report.2, howner]
    decide
  cases hroll : rollover report.1 with
  | true =>
    have hignored : ¬Accepts ep report.1 := fun h => h.2 hroll
    rw [usbKeyboardReport_of_not_accepts hignored, usbStep, hroll, if_pos rfl]
    exact ⟨rfl, rfl⟩
  | false =>
    have haccepts : Accepts ep report.1 := by
      refine ⟨hlong, ?_⟩
      rw [hroll]
      exact Bool.false_ne_true
    refine ⟨?_, ?_⟩
    · rw [usbKeyboardReport, if_neg haccepts.1, if_neg haccepts.2, usbStep, hroll,
        if_neg Bool.false_ne_true]
    · rw [usbKeyboardReport_calls repeatAt haccepts, usbStep, hroll, if_neg Bool.false_ne_true]

/-- Some reports, one after another, from the state without a key down. -/
def decodeRun (step : List UInt8 → BootReport → List UInt8 × List KeyCall) (reports : List BootReport) :
    List UInt8 × List KeyCall :=
  reports.foldl (fun st r => ((step st.1 r).1, st.2 ++ (step st.1 r).2)) (released.1, [])

/-- The last report that is no rollover frame. -/
def lastReport (reports : List BootReport) : BootReport :=
  reports.foldl (fun last r => if rollover r.1 then last else r) released

/-- A usage that a report has as a modifier or in a slot. -/
def Down (report : List UInt8) (u : ℕ) : Prop :=
  modifierDown report u ∨ u ≠ 0 ∧ usbReportHas report u = true

instance (report : List UInt8) (u : ℕ) : Decidable (Down report u) :=
  inferInstanceAs (Decidable (_ ∨ _))

/-- A decoder emits the presses and the releases of a usage in turns, and what is down is what the last
report has. -/
def InTurns (step : List UInt8 → BootReport → List UInt8 × List KeyCall) (reports : List BootReport) :
    Prop :=
  ∀ u, toggled false (edges u (decodeRun step reports).2) = some (decide (Down (lastReport reports).1 u))

/-- What holds of a report after some others: both decoders emit the same, each call once. -/
structure SameCalls (before : List BootReport) (report : BootReport) : Prop where
  same : ∀ call, call ∈ (piStep (decodeRun piStep before).1 report).2 ↔
    call ∈ (usbStep (decodeRun usbStep before).1 report).2
  once : (piStep (decodeRun piStep before).1 report).2.Nodup ∧
    (usbStep (decodeRun usbStep before).1 report).2.Nodup

/-- **The two decoders agree** on some reports and on the release at the end. -/
structure DecodersAgree (reports : List BootReport) : Prop where
  calls : ∀ before report, before ++ [report] <+: reports ++ [released] → SameCalls before report
  turns : ∀ before, before <+: reports ++ [released] → InTurns piStep before ∧ InTurns usbStep before
  empty : ∀ u, toggled false (edges u (decodeRun piStep (reports ++ [released])).2) = some false ∧
    toggled false (edges u (decodeRun usbStep (reports ++ [released])).2) = some false

/-- A usage that is in two slots of a report is in the next one; no usage is a modifier and in a slot
of the same report; and no usage goes from a slot to a modifier. -/
structure Plain (previous report : List UInt8) : Prop where
  single : ∀ u, u ≠ 0 → usbReportHas report u = false → slotCount previous u ≤ 1
  apart : ∀ u, ¬(modifierDown report u ∧ usbReportHas report u = true)
  stays : ∀ u, ¬(usbReportHas previous u = true ∧ modifierDown report u)

/-- The reports that are no rollover frames, after the report of a keyboard without a key down. -/
def history (reports : List BootReport) : List BootReport :=
  released :: reports.filter fun r => rollover r.1 = false

/-! ## The events of a step -/

variable {previous : List UInt8} {report : BootReport} {u : ℕ}

theorem modifierDown_iff {report : List UInt8} (hu : 224 ≤ u ∧ u < 224 + 8) :
    modifierDown report u ↔ (slot report 0).testBit (u - 224) = true :=
  ⟨fun h => h.2.2, fun h => ⟨hu.1, hu.2, h⟩⟩

theorem edges_modifierCalls (previous report : List UInt8) (u : ℕ) :
    edges u ((List.range 8).flatMap (modifierCall previous report)) =
      if modifierDown report u ↔ modifierDown previous u then []
      else [decide (modifierDown report u)] := by
  rw [edges_range (l := fun i =>
    if (slot report 0 ^^^ slot previous 0).testBit i then [(slot report 0).testBit i] else []) 224]
  · by_cases hu : 224 ≤ u ∧ u < 224 + 8
    · rw [if_pos hu, Nat.testBit_xor]
      simp only [modifierDown_iff hu]
      cases (slot report 0).testBit (u - 224) <;> cases (slot previous 0).testBit (u - 224) <;> rfl
    · have hnot : ∀ r, ¬modifierDown r u := fun r h => hu ⟨h.1, h.2.1⟩
      rw [if_neg hu, if_pos (by simp [hnot])]
  · intro i
    rw [modifierCall]
    by_cases hi : 224 + i = u
    · rw [if_pos hi]
      split
      · rw [edges_singleton, if_pos hi]
      · rfl
    · rw [if_neg hi]
      split
      · rw [edges_singleton, if_neg hi]
      · rfl

theorem edges_presses (previous report : List UInt8) (u : ℕ) :
    edges u (keySlots.flatMap (usbPressCall previous report)) =
      if (u ≠ 0 ∧ usbReportHas previous u = false) ∧ usbReportHas report u = true then [true]
      else [] :=
  edges_firsts (slot report) (fun v => v ≠ 0 ∧ usbReportHas previous v = false) true 2 6

theorem edges_pi4Releases (previous report : List UInt8) (u : ℕ) :
    edges u (keySlots.flatMap (pi4ReleaseCall previous report)) =
      if (u ≠ 0 ∧ usbReportHas report u = false) ∧ usbReportHas previous u = true then [false]
      else [] :=
  edges_firsts (slot previous) (fun v => v ≠ 0 ∧ usbReportHas report v = false) false 2 6

theorem edges_usbReleases (previous report : List UInt8) (u : ℕ) :
    edges u (keySlots.flatMap (usbReleaseCall previous report)) =
      if u ≠ 0 ∧ usbReportHas report u = false then List.replicate (slotCount previous u) false
      else [] :=
  edges_loop (slot previous) (fun v => v ≠ 0 ∧ usbReportHas report v = false) false keySlots

/-! ## One usage in a step -/

/-- A modifier that goes from `mp` to `mr`. -/
def modifierEdge (mp mr : Bool) : List Bool := if mr = mp then [] else [mr]

/-- The decoder of the Pi: a usage goes from `mp` to `mr` as a modifier and from `sp` to `sr` in the
slots. -/
def piEdges (mp mr sp sr : Bool) : List Bool :=
  (if sp && !sr then [false] else []) ++ modifierEdge mp mr ++ (if !sp && sr then [true] else [])

/-- The other decoder; the usage was in `c` slots. -/
def usbEdges (mp mr : Bool) (c : ℕ) (sr : Bool) : List Bool :=
  modifierEdge mp mr ++ (if sr then [] else List.replicate c false) ++
    (if c = 0 ∧ sr = true then [true] else [])

/-- When the decoder of the Pi keeps the turns. -/
theorem toggled_piEdges : ∀ mp mr sp sr : Bool, (mp && sp) = false →
    (toggled (mp || sp) (piEdges mp mr sp sr) = some (mr || sr) ↔ (mr && sr) = false) := by
  decide

/-- When the other decoder keeps the turns. -/
theorem toggled_usbEdges (mp mr : Bool) (c : ℕ) (sr : Bool) (h : (mp && decide (0 < c)) = false) :
    toggled (mp || decide (0 < c)) (usbEdges mp mr c sr) = some (mr || sr) ↔
      (mr && sr) = false ∧ (decide (0 < c) && mr) = false ∧ (sr = false → c ≤ 1) := by
  match c with
  | 0 =>
    revert mp mr sr
    decide
  | 1 =>
    revert mp mr sr
    decide
  | c + 2 =>
    have hmp : mp = false := by simpa using h
    subst hmp
    cases mr <;> cases sr <;> simp [usbEdges, modifierEdge, toggled, List.replicate_succ]

theorem nodup_piEdges : ∀ mp mr sp sr d : Bool, (mp && sp) = false → (mr && sr) = false →
    (piEdges mp mr sp sr).count d ≤ 1 := by
  decide

theorem nodup_usbEdges (mp mr : Bool) (c : ℕ) (sr d : Bool) (h : (mp && decide (0 < c)) = false)
    (hapart : (mr && sr) = false) (hone : sr = false → c ≤ 1) : (usbEdges mp mr c sr).count d ≤ 1 := by
  match c with
  | 0 =>
    revert mp mr sr d
    decide
  | 1 =>
    revert mp mr sr d
    decide
  | c + 2 =>
    cases sr with
    | false => exact absurd (hone rfl) (by omega)
    | true =>
      have hmr : mr = false := by simpa using hapart
      subst hmr
      cases mp <;> cases d <;> simp [usbEdges, modifierEdge]

theorem slotCount_zero_or (previous : List UInt8) (u : ℕ) :
    decide (0 < slotCount previous u) = usbReportHas previous u := by
  rw [Bool.eq_iff_iff, decide_eq_true_iff]
  exact slotCount_pos_iff

theorem ite_modifier (previous report : List UInt8) (u : ℕ) :
    (if modifierDown report u ↔ modifierDown previous u then []
      else [decide (modifierDown report u)]) =
      modifierEdge (decide (modifierDown previous u)) (decide (modifierDown report u)) := by
  unfold modifierEdge
  by_cases hp : modifierDown previous u <;> by_cases hr : modifierDown report u <;> simp [hp, hr]

theorem edges_piStep (h : rollover report.1 = false) (hu : u ≠ 0) :
    edges u (piStep previous report).2 =
      piEdges (decide (modifierDown previous u)) (decide (modifierDown report.1 u))
        (usbReportHas previous u) (usbReportHas report.1 u) := by
  have hpress : edges u (keySlots.flatMap (pi4PressCall previous report.1)) = _ :=
    edges_presses previous report.1 u
  rw [piStep, pi4UsbKeyboardDecode, if_neg (by decide), h, if_neg Bool.false_ne_true]
  dsimp only
  rw [edges_append, edges_append, edges_pi4Releases, edges_modifierCalls, hpress, ite_modifier, piEdges]
  cases usbReportHas previous u <;> cases usbReportHas report.1 u <;> simp [hu]

theorem edges_usbStep (h : rollover report.1 = false) (hu : u ≠ 0) :
    edges u (usbStep previous report).2 =
      usbEdges (decide (modifierDown previous u)) (decide (modifierDown report.1 u))
        (slotCount previous u) (usbReportHas report.1 u) := by
  have hcount := slotCount_zero_or previous u
  rw [usbStep, h, if_neg Bool.false_ne_true]
  dsimp only
  rw [usbKeyCalls, edges_append, edges_append, edges_modifierCalls, edges_usbReleases, edges_presses,
    ite_modifier, usbEdges]
  cases hsp : usbReportHas previous u with
  | false =>
    rw [hsp, decide_eq_false_iff_not, Nat.not_lt, Nat.le_zero] at hcount
    cases usbReportHas report.1 u <;> simp [hu, hcount]
  | true =>
    rw [hsp, decide_eq_true_iff] at hcount
    have hne : slotCount previous u ≠ 0 := by omega
    cases usbReportHas report.1 u <;> simp [hu, hne]

theorem modifierDown_zero (report : List UInt8) : ¬modifierDown report 0 := fun h =>
  absurd h.1 (by decide)

/-- Usage 0 stands for no key. -/
theorem edges_step_zero (h : rollover report.1 = false) :
    edges 0 (piStep previous report).2 = [] ∧ edges 0 (usbStep previous report).2 = [] := by
  have hpress : edges 0 (keySlots.flatMap (pi4PressCall previous report.1)) = _ :=
    edges_presses previous report.1 0
  constructor
  · rw [piStep, pi4UsbKeyboardDecode, if_neg (by decide), h, if_neg Bool.false_ne_true]
    dsimp only
    rw [edges_append, edges_append, edges_pi4Releases, edges_modifierCalls, hpress]
    simp [modifierDown_zero]
  · rw [usbStep, h, if_neg Bool.false_ne_true]
    dsimp only
    rw [usbKeyCalls, edges_append, edges_append, edges_modifierCalls, edges_usbReleases,
      edges_presses]
    simp [modifierDown_zero]

theorem decide_down (report : List UInt8) (hu : u ≠ 0) :
    decide (Down report u) = (decide (modifierDown report u) || usbReportHas report u) := by
  rw [Bool.eq_iff_iff, Bool.or_eq_true, decide_eq_true_iff, decide_eq_true_iff]
  unfold Down
  simp [hu]

theorem not_down_zero (report : List UInt8) : ¬Down report 0 := by
  unfold Down
  simp [modifierDown_zero]

/-! ## Steps -/

/-- A report that names no usage both as a modifier and in a slot. -/
def Apart (report : List UInt8) : Prop := ∀ u, ¬(modifierDown report u ∧ usbReportHas report u = true)

theorem Apart.and_eq_false {report : List UInt8} (h : Apart report) (u : ℕ) :
    (decide (modifierDown report u) && usbReportHas report u) = false := by
  rw [Bool.and_eq_false_iff, decide_eq_false_iff_not, ← Bool.not_eq_true, ← not_and_or]
  exact h u

/-- A step of a decoder keeps the turns of every usage. -/
def StepTurns (step : List UInt8 → BootReport → List UInt8 × List KeyCall) (previous : List UInt8)
    (report : BootReport) : Prop :=
  ∀ u, toggled (decide (Down previous u)) (edges u (step previous report).2) =
    some (decide (Down report.1 u))

/-- **Both decoders keep the turns** exactly on a plain report. -/
theorem stepTurns_iff (h : rollover report.1 = false) (hapart : Apart previous) :
    StepTurns piStep previous report ∧ StepTurns usbStep previous report ↔
      Plain previous report.1 := by
  have hpi : ∀ u, u ≠ 0 → (toggled (decide (Down previous u)) (edges u (piStep previous report).2) =
      some (decide (Down report.1 u)) ↔
      (decide (modifierDown report.1 u) && usbReportHas report.1 u) = false) := by
    intro u hu
    rw [edges_piStep h hu, decide_down _ hu, decide_down _ hu]
    exact toggled_piEdges _ _ _ _ (hapart.and_eq_false u)
  have husb : ∀ u, u ≠ 0 →
      (toggled (decide (Down previous u)) (edges u (usbStep previous report).2) =
        some (decide (Down report.1 u)) ↔
      (decide (modifierDown report.1 u) && usbReportHas report.1 u) = false ∧
        (usbReportHas previous u && decide (modifierDown report.1 u)) = false ∧
        (usbReportHas report.1 u = false → slotCount previous u ≤ 1)) := by
    intro u hu
    have hcells := toggled_usbEdges (decide (modifierDown previous u))
      (decide (modifierDown report.1 u)) (slotCount previous u) (usbReportHas report.1 u)
    rw [slotCount_zero_or] at hcells
    rw [edges_usbStep h hu, decide_down _ hu, decide_down _ hu]
    exact hcells (hapart.and_eq_false u)
  have hmodifier : ∀ u, modifierDown report.1 u → u ≠ 0 := by
    rintro u hdown rfl
    exact modifierDown_zero _ hdown
  constructor
  · rintro ⟨hturns, hturns'⟩
    refine ⟨?_, ?_, ?_⟩
    · intro u hu hgone
      exact ((husb u hu).mp (hturns' u)).2.2 hgone
    · rintro u ⟨hdown, hhas⟩
      have hapart' := (hpi u (hmodifier u hdown)).mp (hturns u)
      rw [decide_eq_true hdown, hhas] at hapart'
      exact absurd hapart' (by decide)
    · rintro u ⟨hhas, hdown⟩
      have hstays := ((husb u (hmodifier u hdown)).mp (hturns' u)).2.1
      rw [decide_eq_true hdown, hhas] at hstays
      exact absurd hstays (by decide)
  · intro hplain
    have hand : (∀ u, (decide (modifierDown report.1 u) && usbReportHas report.1 u) = false) :=
      Apart.and_eq_false hplain.apart
    constructor
    · intro u
      by_cases hu : u = 0
      · subst hu
        rw [(edges_step_zero h).1, decide_eq_false (not_down_zero _),
          decide_eq_false (not_down_zero _)]
        rfl
      · exact (hpi u hu).mpr (hand u)
    · intro u
      by_cases hu : u = 0
      · subst hu
        rw [(edges_step_zero h).2, decide_eq_false (not_down_zero _),
          decide_eq_false (not_down_zero _)]
        rfl
      · refine (husb u hu).mpr ⟨hand u, ?_, hplain.single u hu⟩
        rw [Bool.and_eq_false_iff, ← Bool.not_eq_true, decide_eq_false_iff_not, ← not_and_or]
        exact hplain.stays u

/-- On a plain report both decoders emit the same, each call once. -/
theorem Plain.sameCalls (h : rollover report.1 = false) (hapart : Apart previous)
    (hplain : Plain previous report.1) :
    (∀ call, call ∈ (piStep previous report).2 ↔ call ∈ (usbStep previous report).2) ∧
      (piStep previous report).2.Nodup ∧ (usbStep previous report).2.Nodup := by
  have hzero := @edges_step_zero previous report h
  refine ⟨?_, ?_, ?_⟩
  · rintro ⟨u, d⟩
    rw [mem_iff_edges, mem_iff_edges]
    by_cases hu : u = 0
    · subst hu
      rw [hzero.1, hzero.2]
    · have hcount := slotCount_zero_or previous u
      rw [edges_piStep h hu, edges_usbStep h hu, ← hcount]
      generalize slotCount previous u = c
      by_cases hc : 0 < c
      · have hne : c ≠ 0 := by omega
        cases hsr : usbReportHas report.1 u <;> simp [piEdges, usbEdges, hc, hne, or_comm]
      · have hc : c = 0 := by omega
        subst hc
        simp [piEdges, usbEdges]
  · rw [nodup_iff_edges]
    intro u d
    by_cases hu : u = 0
    · subst hu
      rw [hzero.1]
      exact Nat.zero_le _
    · rw [edges_piStep h hu]
      exact nodup_piEdges _ _ _ _ d (hapart.and_eq_false u) (Apart.and_eq_false hplain.apart u)
  · rw [nodup_iff_edges]
    intro u d
    by_cases hu : u = 0
    · subst hu
      rw [hzero.2]
      exact Nat.zero_le _
    · rw [edges_usbStep h hu]
      refine nodup_usbEdges _ _ _ _ d ?_ (Apart.and_eq_false hplain.apart u) (hplain.single u hu)
      rw [slotCount_zero_or]
      exact hapart.and_eq_false u

/-! ## Runs -/

variable {step : List UInt8 → BootReport → List UInt8 × List KeyCall} {reports : List BootReport}

theorem decodeRun_concat (reports : List BootReport) (report : BootReport) :
    decodeRun step (reports ++ [report]) =
      ((step (decodeRun step reports).1 report).1,
        (decodeRun step reports).2 ++ (step (decodeRun step reports).1 report).2) := by
  rw [decodeRun, List.foldl_append]
  rfl

theorem lastReport_concat (reports : List BootReport) (report : BootReport) :
    lastReport (reports ++ [report]) = if rollover report.1 then lastReport reports else report := by
  rw [lastReport, List.foldl_append]
  rfl

/-- A decoder that keeps each report unless it is a rollover frame, which it ignores. -/
structure KeepsReport (step : List UInt8 → BootReport → List UInt8 × List KeyCall) : Prop where
  accepted : ∀ previous report, rollover report.1 = false → (step previous report).1 = report.1
  ignored : ∀ previous report, rollover report.1 = true → step previous report = (previous, [])

theorem keepsReport_piStep : KeepsReport piStep where
  accepted previous report h := by
    rw [piStep, pi4UsbKeyboardDecode, if_neg (by decide), h, if_neg Bool.false_ne_true]
    exact List.take_of_length_le (le_of_eq report.2)
  ignored previous report h := by
    rw [piStep, pi4UsbKeyboardDecode, if_neg (by decide), h, if_pos rfl]

theorem keepsReport_usbStep : KeepsReport usbStep where
  accepted previous report h := by
    rw [usbStep, h, if_neg Bool.false_ne_true]
    exact List.take_of_length_le (le_of_eq report.2)
  ignored previous report h := by
    rw [usbStep, h, if_pos rfl]

theorem KeepsReport.last (h : KeepsReport step) (reports : List BootReport) :
    (decodeRun step reports).1 = (lastReport reports).1 := by
  induction reports using List.reverseRecOn with
  | nil => rfl
  | append_singleton reports report ih =>
    rw [decodeRun_concat, lastReport_concat]
    cases hroll : rollover report.1 with
    | true => rw [h.ignored _ _ hroll, if_pos rfl, ih]
    | false => rw [h.accepted _ _ hroll, if_neg Bool.false_ne_true]

/-- One more report keeps the turns exactly if its step does. -/
theorem KeepsReport.inTurns_concat (h : KeepsReport step) (hroll : rollover report.1 = false)
    (hturns : InTurns step reports) :
    InTurns step (reports ++ [report]) ↔ StepTurns step (lastReport reports).1 report := by
  unfold InTurns StepTurns
  refine forall_congr' fun u => ?_
  rw [decodeRun_concat, lastReport_concat, hroll, if_neg Bool.false_ne_true, edges_append,
    toggled_append, hturns u, h.last, Option.bind_some]

theorem KeepsReport.inTurns_ignored (h : KeepsReport step) (hroll : rollover report.1 = true)
    (hturns : InTurns step reports) : InTurns step (reports ++ [report]) := by
  intro u
  rw [decodeRun_concat, lastReport_concat, hroll, if_pos rfl, h.ignored _ _ hroll, List.append_nil]
  exact hturns u

theorem not_down_released (u : ℕ) : ¬Down released.1 u := by
  have hslot : ∀ i, slot released.1 i = 0 := by
    intro i
    have hbyte : (List.replicate 8 (0 : UInt8)).getD i 0 = 0 := by
      rw [List.getD_eq_getElem?_getD, List.getElem?_replicate]
      split <;> rfl
    exact congrArg UInt8.toNat hbyte
  rintro (hdown | ⟨hu, hhas⟩)
  · have hbit := hdown.2.2
    rw [hslot, Nat.zero_testBit] at hbit
    cases hbit
  · obtain ⟨i, -, hi⟩ := List.any_eq_true.mp hhas
    rw [decide_eq_true_iff, hslot] at hi
    exact hu hi.symm

theorem apart_released : Apart released.1 := fun u h => not_down_released u (.inl h.1)

/-- Two reports in a row are plain. -/
def PlainStep (previous report : BootReport) : Prop := Plain previous.1 report.1

theorem history_concat (reports : List BootReport) (report : BootReport) :
    history (reports ++ [report]) =
      if rollover report.1 then history reports else history reports ++ [report] := by
  unfold history
  rw [List.filter_append]
  cases hroll : rollover report.1 <;> simp [hroll]

theorem getLast?_history (reports : List BootReport) :
    (history reports).getLast? = some (lastReport reports) := by
  induction reports using List.reverseRecOn with
  | nil => rfl
  | append_singleton reports report ih =>
    rw [history_concat, lastReport_concat]
    cases rollover report.1 with
    | true => exact ih
    | false => simp

theorem isChain_history_concat (reports : List BootReport) (hroll : rollover report.1 = false) :
    (history (reports ++ [report])).IsChain PlainStep ↔
      (history reports).IsChain PlainStep ∧ PlainStep (lastReport reports) report := by
  rw [history_concat, hroll, if_neg Bool.false_ne_true, List.isChain_append, getLast?_history]
  simp

/-- What the decoders do up to each of some reports. -/
structure AgreeOn (reports : List BootReport) : Prop where
  calls : ∀ before report, before ++ [report] <+: reports → SameCalls before report
  turns : ∀ before, before <+: reports → InTurns piStep before ∧ InTurns usbStep before

theorem agreeOn_concat (reports : List BootReport) (report : BootReport) :
    AgreeOn (reports ++ [report]) ↔ AgreeOn reports ∧ SameCalls reports report ∧
      InTurns piStep (reports ++ [report]) ∧ InTurns usbStep (reports ++ [report]) := by
  constructor
  · rintro ⟨hcalls, hturns⟩
    have hprev : reports <+: reports ++ [report] := List.prefix_append ..
    refine ⟨⟨?_, ?_⟩, hcalls reports report (List.prefix_refl _), hturns _ (List.prefix_refl _)⟩
    · intro before r h
      exact hcalls before r (h.trans hprev)
    · intro before h
      exact hturns before (h.trans hprev)
  · rintro ⟨⟨hcalls, hturns⟩, hlast, hlastTurns⟩
    refine ⟨?_, ?_⟩
    · intro before r h
      rcases List.prefix_concat_iff.mp h with heq | hshort
      · obtain ⟨rfl, rfl⟩ := List.append_singleton_inj.mp heq
        exact hlast
      · exact hcalls before r hshort
    · intro before h
      rcases List.prefix_concat_iff.mp h with rfl | hshort
      · exact hlastTurns
      · exact hturns before hshort

theorem sameCalls_iff (before : List BootReport) (report : BootReport) :
    SameCalls before report ↔
      (∀ call, call ∈ (piStep (lastReport before).1 report).2 ↔
        call ∈ (usbStep (lastReport before).1 report).2) ∧
      (piStep (lastReport before).1 report).2.Nodup ∧
        (usbStep (lastReport before).1 report).2.Nodup := by
  rw [← keepsReport_piStep.last before]
  constructor
  · rintro ⟨hsame, honce⟩
    rw [keepsReport_usbStep.last, ← keepsReport_piStep.last] at hsame honce
    exact ⟨hsame, honce⟩
  · rintro ⟨hsame, honce⟩
    refine ⟨?_, ?_⟩
    · rw [keepsReport_usbStep.last, ← keepsReport_piStep.last]
      exact hsame
    · rw [keepsReport_usbStep.last, ← keepsReport_piStep.last]
      exact honce

/-- A rollover frame changes nothing. -/
theorem sameCalls_ignored (before : List BootReport) (hroll : rollover report.1 = true) :
    SameCalls before report := by
  rw [sameCalls_iff, keepsReport_piStep.ignored _ _ hroll, keepsReport_usbStep.ignored _ _ hroll]
  exact ⟨fun _ => Iff.rfl, List.nodup_nil, List.nodup_nil⟩

/-- The last report of a plain history. -/
theorem apart_lastReport (h : (history reports).IsChain PlainStep) :
    Apart (lastReport reports).1 := by
  induction reports using List.reverseRecOn with
  | nil => exact apart_released
  | append_singleton reports report ih =>
    rw [lastReport_concat]
    cases hroll : rollover report.1 with
    | true =>
      rw [history_concat, hroll, if_pos rfl] at h
      exact ih h
    | false => exact ((isChain_history_concat reports hroll).mp h).2.apart

/-- **The run**: the decoders agree on some reports exactly if each two that count in a row are
plain. -/
theorem agreeOn_iff (reports : List BootReport) :
    AgreeOn reports ↔ (history reports).IsChain PlainStep := by
  induction reports using List.reverseRecOn with
  | nil =>
    refine ⟨fun _ => List.isChain_singleton _, fun _ => ⟨?_, ?_⟩⟩
    · intro before report h
      exact absurd (List.prefix_nil.mp h) (by simp)
    · intro before h
      rw [List.prefix_nil.mp h]
      refine ⟨fun u => ?_, fun u => ?_⟩ <;>
        exact congrArg some (decide_eq_false (not_down_released u)).symm
  | append_singleton reports report ih =>
    rw [agreeOn_concat, ih]
    cases hroll : rollover report.1 with
    | true =>
      rw [history_concat, hroll, if_pos rfl]
      refine ⟨fun h => h.1, fun h => ⟨h, sameCalls_ignored reports hroll, ?_⟩⟩
      have hturns := (ih.mpr h).turns reports (List.prefix_refl _)
      exact ⟨keepsReport_piStep.inTurns_ignored hroll hturns.1,
        keepsReport_usbStep.inTurns_ignored hroll hturns.2⟩
    | false =>
      rw [isChain_history_concat reports hroll]
      refine and_congr_right fun h => ?_
      have hturns := (ih.mpr h).turns reports (List.prefix_refl _)
      have hapart := apart_lastReport h
      rw [keepsReport_piStep.inTurns_concat hroll hturns.1, keepsReport_usbStep.inTurns_concat hroll hturns.2,
        stepTurns_iff hroll hapart, sameCalls_iff]
      exact ⟨fun h => h.2, fun hplain => ⟨hplain.sameCalls hroll hapart, hplain⟩⟩

/-- **The decoders agree** on some reports and on the release at the end exactly if each two reports that
count are plain. -/
theorem decoders_agree_iff (reports : List BootReport) :
    DecodersAgree reports ↔ (history (reports ++ [released])).IsChain PlainStep := by
  rw [← agreeOn_iff]
  refine ⟨fun h => ⟨h.calls, h.turns⟩, fun h => ⟨h.calls, h.turns, fun u => ?_⟩⟩
  have hturns := h.turns _ (List.prefix_refl _)
  have hlast : lastReport (reports ++ [released]) = released := by
    rw [lastReport_concat]
    exact if_neg (by decide)
  have hup : decide (Down (lastReport (reports ++ [released])).1 u) = false := by
    rw [hlast]
    exact decide_eq_false (not_down_released u)
  have hpi := hturns.1 u
  have husb := hturns.2 u
  rw [hup] at hpi husb
  exact ⟨hpi, husb⟩

/-- A key in two slots. -/
def doubled : BootReport := ⟨[0, 0, 4, 4, 0, 0, 0, 0], rfl⟩

/-- **A key that a report has twice** is released twice. -/
theorem doubled_disagree : ¬DecodersAgree [doubled] := by
  intro h
  have honce := (h.calls [doubled] released (List.prefix_refl _)).once.2
  revert honce
  decide

end ZealBringup.Usb
