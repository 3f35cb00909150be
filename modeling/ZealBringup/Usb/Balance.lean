import ZealBringup.Usb.Edges

/-!
# Balanced key events

Runs of reports, auto-repeats and a release at the keyboard, and when their key events are
balanced.

* `KeyRun`, `keyStep` — a run, with its key events and the last accepted report.
* `Balanced` — each release goes with one press, and the keys that are down are in the last report.
* `DropsOnce` — a step that releases no usage which the last report has twice.
* `usb_keyboard_balanced_iff` — a run is balanced exactly when each of its steps drops once.
-/

namespace ZealBringup.Usb

open Presses

/-! ## Runs -/

/-- What happens at a keyboard, with the deadline that the code computes then. -/
inductive KeyStep where
  | report (bytes : List UInt8) (repeatAt : ℕ)
  | poll (now repeatAt : ℕ)
  | release

/-- A keyboard, the presses and releases so far and the last accepted report. -/
structure KeyRun where
  ep : Keyboard
  trace : List KeyEvent
  last : List UInt8

def keyStep (st : KeyRun) : KeyStep → KeyRun
  | .report bytes repeatAt =>
      { ep := (usbKeyboardReport repeatAt st.ep bytes).1
        trace := st.trace ++ (usbKeyboardReport repeatAt st.ep bytes).2
        last := if Accepts st.ep bytes then bytes else st.last }
  | .poll now repeatAt => { st with ep := (usbRepeat now repeatAt st.ep).1 }
  | .release =>
      { ep := (usbReleaseDevice st.ep).1
        trace := st.trace ++ (usbReleaseDevice st.ep).2
        last := [] }

/-- The keyboard that is selected as the owner, before its first report. -/
def keyStart : KeyRun := ⟨⟨true, true, List.replicate 8 0, 0, 0⟩, [], []⟩

def keyRun (steps : List KeyStep) : KeyRun := steps.foldl keyStep keyStart

/-- How often a usage was pressed and not released, if each release goes with one press. -/
def held (u : ℕ) (trace : List KeyEvent) : Option ℕ := pressed u (trace.map KeyEvent.edge)

/-- A usage with a key code that a report has as a modifier or in a slot. -/
def Present (report : List UInt8) (u : ℕ) : Prop :=
  usbHidKey u ≠ 0 ∧ (modifierDown report u ∨ usbReportHas report u = true)

/-- Each release goes with one press, the keys that are down are those of the last report, and the
auto-repeat only repeats such a key. -/
structure Balanced (st : KeyRun) : Prop where
  matched : ∀ u, ∃ n, held u st.trace = some n ∧ (0 < n ↔ Present st.last u)
  repeated : ∀ now repeatAt, ∀ e ∈ (usbRepeat now repeatAt st.ep).2,
    e.down = true ∧ ∃ n, held e.usage st.trace = some (n + 1)

/-- The step releases no usage that the last accepted report has in two slots. -/
def DropsOnce (st : KeyRun) : KeyStep → Prop
  | .report bytes _ => Accepts st.ep bytes → ∀ u, usbHidKey u ≠ 0 →
      usbReportHas bytes u = false → slotCount st.last u ≤ 1
  | .poll _ _ => True
  | .release => ∀ u, usbHidKey u ≠ 0 → slotCount st.last u ≤ 1

variable {ep : Keyboard} {previous report : List UInt8} {u i k : ℕ} {repeatAt : ℕ}

/-! ## The invariant -/

/-- A report with the same first eight bytes. -/
def SameSlots (report report' : List UInt8) : Prop := ∀ i < 8, slot report i = slot report' i

theorem lt_of_mem_keySlots (hi : i ∈ keySlots) : i < 8 := by
  rw [keySlots, List.mem_range'_1] at hi
  omega

theorem SameSlots.usbReportHas (h : SameSlots previous report) (u : ℕ) :
    usbReportHas previous u = usbReportHas report u := by
  rw [Bool.eq_iff_iff, Usb.usbReportHas, Usb.usbReportHas, List.any_eq_true, List.any_eq_true]
  refine exists_congr fun i => and_congr_right fun hi => ?_
  rw [h i (lt_of_mem_keySlots hi)]

theorem SameSlots.slotCount (h : SameSlots previous report) (u : ℕ) :
    slotCount previous u = slotCount report u := by
  rw [Usb.slotCount, Usb.slotCount]
  refine List.countP_congr fun i hi => ?_
  rw [h i (lt_of_mem_keySlots hi)]

theorem SameSlots.modifierDown (h : SameSlots previous report) (u : ℕ) :
    modifierDown previous u ↔ modifierDown report u := by
  rw [Usb.modifierDown, Usb.modifierDown, h 0 (by decide)]

theorem sameSlots_take (report : List UInt8) : SameSlots (report.take 8) report := by
  intro i hi
  rw [slot, slot, List.getD_eq_getElem?_getD, List.getD_eq_getElem?_getD,
    List.getElem?_take_of_lt hi]

/-- How often a usage is pressed after a report. -/
def presses (report : List UInt8) (u : ℕ) : ℕ :=
  (if modifierDown report u then 1 else 0) + if usbReportHas report u = true then 1 else 0

/-- What holds between the steps of a balanced run. -/
structure KeyInv (st : KeyRun) : Prop where
  coded : ∀ e ∈ st.trace, usbHidKey e.usage ≠ 0
  held : ∀ u, usbHidKey u ≠ 0 → held u st.trace = some (presses st.last u)
  same : st.ep.owner = true → SameSlots st.ep.previous st.last
  gone : st.ep.owner = false → st.last = []
  again : st.ep.repeatUsage = 0 ∨
    st.ep.owner = true ∧ usbReportHas st.ep.previous st.ep.repeatUsage = true

variable {st : KeyRun} {bytes : List UInt8}

theorem slotCount_pos_iff : 0 < slotCount report u ↔ usbReportHas report u = true := by
  rw [slotCount, List.countP_pos_iff, usbReportHas, List.any_eq_true]

/-- The modifiers, when the key of the slots counts once more. -/
theorem unreleased_modifiers (k : ℕ) :
    unreleased ((if modifierDown previous u then 1 else 0) + k)
        (if modifierDown report u ↔ modifierDown previous u then []
          else [decide (modifierDown report u)]) =
      some ((if modifierDown report u then 1 else 0) + k) := by
  by_cases hreport : modifierDown report u <;> by_cases hprevious : modifierDown previous u
  · simp [hreport, hprevious]
  · simp [hreport, hprevious, unreleased, Nat.add_comm]
  · have hsucc : 1 + k = k + 1 := Nat.add_comm 1 k
    simp [hreport, hprevious, hsucc, unreleased]
  · simp [hreport, hprevious]

/-- What an accepted report makes of the presses of a usage: without the usage in a slot, the
releases of all slots that had it. -/
theorem unreleased_report (hcode : usbHidKey u ≠ 0) (h : Accepts ep report)
    (hsame : SameSlots ep.previous previous) :
    unreleased (presses previous u) (keyEdges u (usbKeyboardReport repeatAt ep report).2) =
      if usbReportHas report u = true then some (presses report u)
      else unreleased ((if modifierDown report u then 1 else 0) +
        if usbReportHas previous u = true then 1 else 0)
          (List.replicate (slotCount previous u) false) := by
  rw [keyEdges_report hcode h, hsame.usbReportHas, hsame.slotCount]
  simp only [hsame.modifierDown]
  rw [List.append_assoc, unreleased_append, presses, unreleased_modifiers, Option.bind_some]
  cases hreport : usbReportHas report u with
  | true => cases hprevious : usbReportHas previous u <;> simp [presses, hreport, unreleased]
  | false => simp

theorem presses_of_not_has (h : usbReportHas report u = false) :
    presses report u = if modifierDown report u then 1 else 0 := by
  rw [presses, h, if_neg Bool.false_ne_true, Nat.add_zero]

theorem unreleased_slots (h : slotCount previous u ≤ 1) (k : ℕ) :
    unreleased (k + if usbReportHas previous u = true then 1 else 0)
        (List.replicate (slotCount previous u) false) = some k := by
  by_cases hhas : usbReportHas previous u = true
  · have hone : slotCount previous u = 1 :=
      Nat.le_antisymm h (slotCount_pos_iff.2 hhas)
    rw [hone, if_pos hhas, unreleased_replicate (by omega), Nat.add_sub_cancel]
  · have hzero : slotCount previous u = 0 :=
      Nat.eq_zero_of_not_pos fun hpos => hhas (slotCount_pos_iff.1 hpos)
    rw [hzero, if_neg hhas, List.replicate_zero, unreleased_nil, Nat.add_zero]

theorem unreleased_slots_twice (h : 1 < slotCount previous u) {k n : ℕ} (hk : k ≤ 1)
    (hn : unreleased (k + if usbReportHas previous u = true then 1 else 0)
      (List.replicate (slotCount previous u) false) = some n) : k = 1 ∧ n = 0 := by
  rw [if_pos (slotCount_pos_iff.1 (by omega))] at hn
  by_cases hle : slotCount previous u ≤ k + 1
  · rw [unreleased_replicate hle] at hn
    have hn' := Option.some.inj hn
    omega
  · rw [unreleased_replicate_of_lt (by omega)] at hn
    cases hn

theorem keyStart_inv : KeyInv keyStart where
  coded := fun e he => absurd he List.not_mem_nil
  held := fun u hcode => by
    have hu : u ≠ 0 := fun h => hcode (by rw [h, usbHidKey_zero])
    have hhas : usbReportHas [] u = false := by
      simp [usbReportHas, slot, Ne.symm hu]
    have hmodifier : ¬modifierDown [] u := fun h => by simpa [slot] using h.2.2
    rw [keyStart, presses_of_not_has hhas, if_neg hmodifier]
    rfl
  same := fun _ i hi => by
    simp only [keyStart, slot, List.getD_eq_getElem?_getD, List.getElem?_nil,
      List.getElem?_replicate, hi, if_true, Option.getD_some, Option.getD_none]
  gone := fun h => absurd h (by decide)
  again := .inl rfl

theorem KeyInv.balanced (h : KeyInv st) : Balanced st where
  matched := fun u => by
    by_cases hcode : usbHidKey u ≠ 0
    · refine ⟨presses st.last u, h.held u hcode, ?_⟩
      rw [Present, presses]
      by_cases hmodifier : modifierDown st.last u <;>
        by_cases hhas : usbReportHas st.last u = true <;> simp [hmodifier, hhas, hcode]
    · refine ⟨0, ?_, fun h0 => absurd h0 (Nat.lt_irrefl 0), fun hpresent => absurd hpresent.1 hcode⟩
      have hedges := keyEdges_of_no_code hcode h.coded
      rw [keyEdges] at hedges
      rw [Usb.held, pressed, hedges, unreleased_nil]
  repeated := fun now repeatAt e he => by
    rw [usbRepeat] at he
    split at he
    · next hrepeat =>
      rw [usbKey] at he
      split at he
      · next hcode =>
        rw [List.mem_singleton.1 he]
        refine ⟨rfl, ?_⟩
        obtain ⟨howner, hhas⟩ := h.again.resolve_left hrepeat.2.1
        rw [(h.same howner).usbReportHas] at hhas
        refine ⟨if modifierDown st.last st.ep.repeatUsage then 1 else 0, ?_⟩
        rw [h.held _ hcode, presses, if_pos hhas]
      · exact absurd he List.not_mem_nil
    · exact absurd he List.not_mem_nil

theorem held_append (h : held u st.trace = some k) (keys : List KeyEvent) :
    held u (st.trace ++ keys) = unreleased k (keyEdges u keys) := by
  rw [held, List.map_append, pressed_append h, keyEdges]

/-! ## Steps -/

theorem usbKeyboardReport_owner (repeatAt : ℕ) (h : Accepts ep report) :
    (usbKeyboardReport repeatAt ep report).1.owner = true ∧
      (usbKeyboardReport repeatAt ep report).1.previous = report.take 8 := by
  have howner : ep.owner = true := by
    cases hep : ep.owner with
    | true => rfl
    | false => exact absurd (.inr hep) h.1
  rw [usbKeyboardReport, if_neg h.1, if_neg h.2]
  dsimp only
  rw [(pressSlots_rounds report repeatAt _).2.2, (releaseSlots_rounds report _).2.2]
  exact ⟨howner, rfl⟩

/-- An accepted report of a balanced run. -/
theorem keyStep_report_inv (h : KeyInv st) (haccepts : Accepts st.ep bytes)
    (honce : ∀ u, usbHidKey u ≠ 0 → usbReportHas bytes u = false → slotCount st.last u ≤ 1) :
    KeyInv (keyStep st (.report bytes repeatAt)) := by
  obtain ⟨howner', hprevious'⟩ := usbKeyboardReport_owner repeatAt haccepts
  have howner : st.ep.owner = true := by
    cases hep : st.ep.owner with
    | true => rfl
    | false => exact absurd (.inr hep) haccepts.1
  have hlast : (keyStep st (.report bytes repeatAt)).last = bytes := if_pos haccepts
  refine ⟨append_coded h.coded usbKeyboardReport_coded, fun u hcode => ?_, fun _ => ?_, ?_, ?_⟩
  · rw [hlast]
    refine (held_append (h.held u hcode) _).trans ?_
    rw [unreleased_report hcode haccepts (h.same howner)]
    cases hreport : usbReportHas bytes u with
    | true => rfl
    | false =>
      rw [if_neg Bool.false_ne_true, unreleased_slots (honce u hcode hreport),
        presses_of_not_has hreport]
  · rw [hlast]
    intro i hi
    exact (congrArg (slot · i) hprevious').trans (sameSlots_take bytes i hi)
  · intro hfalse
    exact absurd (howner'.symm.trans hfalse) (by decide)
  · have hrepeat := usbKeyboardReport_repeat repeatAt haccepts
      (h.again.imp_right And.right)
    refine hrepeat.imp_right fun hhas => ⟨howner', ?_⟩
    have hsame : SameSlots (usbKeyboardReport repeatAt st.ep bytes).1.previous bytes := by
      rw [hprevious']
      exact sameSlots_take bytes
    exact (hsame.usbReportHas _).trans hhas

theorem keyStep_report_ignored (h : ¬Accepts st.ep bytes) :
    keyStep st (.report bytes repeatAt) = st := by
  rw [keyStep, usbKeyboardReport_of_not_accepts h, if_neg h, List.append_nil]

theorem keyStep_poll_inv (h : KeyInv st) (now : ℕ) : KeyInv (keyStep st (.poll now repeatAt)) := by
  have hsame : (usbRepeat now repeatAt st.ep).1.owner = st.ep.owner ∧
      (usbRepeat now repeatAt st.ep).1.previous = st.ep.previous ∧
      (usbRepeat now repeatAt st.ep).1.repeatUsage = st.ep.repeatUsage := by
    rw [usbRepeat]
    split <;> exact ⟨rfl, rfl, rfl⟩
  obtain ⟨howner, hprevious, hrepeat⟩ := hsame
  refine ⟨h.coded, h.held, fun hep => ?_, fun hep => ?_, ?_⟩
  · intro i hi
    exact (congrArg (slot · i) hprevious).trans (h.same (howner.symm.trans hep) i hi)
  · exact h.gone (howner.symm.trans hep)
  · rw [keyStep, hrepeat, howner, hprevious]
    exact h.again

/-- The releases of a device whose slots are released once each. -/
theorem unreleased_release (hcode : usbHidKey u ≠ 0) (howner : ep.owner = true)
    (hsame : SameSlots ep.previous previous) :
    unreleased (presses previous u) (keyEdges u (usbReleaseDevice ep).2) =
      unreleased (0 + if usbReportHas previous u = true then 1 else 0)
        (List.replicate (slotCount previous u) false) := by
  rw [keyEdges_release hcode howner, hsame.slotCount, presses]
  simp only [hsame.modifierDown]
  by_cases hmodifier : modifierDown previous u
  · rw [if_pos hmodifier, if_pos hmodifier, Nat.add_comm 1, Nat.zero_add, List.singleton_append,
      unreleased]
  · rw [if_neg hmodifier, if_neg hmodifier, List.nil_append]

theorem presses_nil (hcode : usbHidKey u ≠ 0) : presses [] u = 0 := by
  have hheld := keyStart_inv.held u hcode
  exact (Option.some.inj hheld).symm

theorem keyStep_release_inv (h : KeyInv st)
    (honce : ∀ u, usbHidKey u ≠ 0 → slotCount st.last u ≤ 1) : KeyInv (keyStep st .release) := by
  refine ⟨append_coded h.coded usbReleaseDevice_coded, fun u hcode => ?_,
    fun hep => absurd hep Bool.false_ne_true, fun _ => rfl, .inl rfl⟩
  refine (held_append (h.held u hcode) _).trans ?_
  rw [keyStep, presses_nil hcode]
  cases howner : st.ep.owner with
  | true =>
    rw [unreleased_release hcode howner (h.same howner)]
    exact unreleased_slots (honce u hcode) 0
  | false =>
    have hkeys : (usbReleaseDevice st.ep).2 = [] := if_neg (by rw [howner]; decide)
    rw [hkeys, keyEdges_nil, unreleased_nil, h.gone howner, presses_nil hcode]

/-- **A step keeps the invariant**, if it drops once. -/
theorem keyStep_inv (h : KeyInv st) (step : KeyStep) (honce : DropsOnce st step) :
    KeyInv (keyStep st step) := by
  cases step with
  | report bytes repeatAt =>
    by_cases haccepts : Accepts st.ep bytes
    · exact keyStep_report_inv h haccepts (honce haccepts)
    · rw [keyStep_report_ignored haccepts]
      exact h
  | poll now repeatAt => exact keyStep_poll_inv h now
  | release => exact keyStep_release_inv h honce

/-- **A step that leaves a balanced state drops once.** -/
theorem dropsOnce_of_balanced (h : KeyInv st) (step : KeyStep)
    (hbalanced : Balanced (keyStep st step)) : DropsOnce st step := by
  cases step with
  | report bytes repeatAt =>
    intro haccepts u hcode hreport
    have howner : st.ep.owner = true := by
      cases hep : st.ep.owner with
      | true => rfl
      | false => exact absurd (.inr hep) haccepts.1
    obtain ⟨n, hheld, hpresent⟩ := hbalanced.matched u
    have hlast : (keyStep st (.report bytes repeatAt)).last = bytes := if_pos haccepts
    have hun := (held_append (h.held u hcode) _).symm.trans hheld
    rw [unreleased_report hcode haccepts (h.same howner), hreport,
      if_neg Bool.false_ne_true] at hun
    rw [hlast] at hpresent
    by_contra hmany
    obtain ⟨hk, hn⟩ := unreleased_slots_twice (by omega) (by split <;> omega) hun
    have hmodifier : modifierDown bytes u := by
      by_contra hnot
      rw [if_neg hnot] at hk
      exact absurd hk (by decide)
    have hpos := hpresent.2 ⟨hcode, .inl hmodifier⟩
    omega
  | poll now repeatAt => trivial
  | release =>
    intro u hcode
    cases howner : st.ep.owner with
    | true =>
      obtain ⟨n, hheld, -⟩ := hbalanced.matched u
      have hun := (held_append (h.held u hcode) _).symm.trans hheld
      rw [unreleased_release hcode howner (h.same howner)] at hun
      by_contra hmany
      exact absurd (unreleased_slots_twice (by omega) (by omega) hun).1 (by decide)
    | false =>
      have hu : u ≠ 0 := fun hu => hcode (by rw [hu, usbHidKey_zero])
      rw [h.gone howner]
      simp [slotCount, slot, hu.symm]

/-! ## Runs -/

theorem keyRun_append (steps : List KeyStep) (step : KeyStep) :
    keyRun (steps ++ [step]) = keyStep (keyRun steps) step := by
  rw [keyRun, List.foldl_append]
  rfl

theorem keyRun_inv (steps : List KeyStep)
    (honce : ∀ before step after, steps = before ++ step :: after →
      DropsOnce (keyRun before) step) : KeyInv (keyRun steps) := by
  induction steps using List.reverseRecOn with
  | nil => exact keyStart_inv
  | append_singleton steps step ih =>
    rw [keyRun_append]
    refine keyStep_inv (ih fun before step' after hsteps => ?_) step (honce steps step [] rfl)
    exact honce before step' (after ++ [step]) (by rw [hsteps]; simp)

/-- **Balanced runs.** From the selection of the owner on, all states of a run are balanced exactly
when each step drops once: no accepted report leaves out, and no release of the device finds, a
usage that the last accepted report has in two slots. -/
theorem usb_keyboard_balanced_iff (steps : List KeyStep) :
    (∀ before after, steps = before ++ after → Balanced (keyRun before)) ↔
      ∀ before step after, steps = before ++ step :: after → DropsOnce (keyRun before) step := by
  constructor
  · intro hbalanced
    induction steps using List.reverseRecOn with
    | nil =>
      intro before step after hsteps
      simp at hsteps
    | append_singleton steps last ih =>
      have honce := ih fun before after hsteps =>
        hbalanced before (after ++ [last]) (by rw [hsteps, List.append_assoc])
      intro before step after hsteps
      rcases List.eq_nil_or_concat after with rfl | ⟨after, last', rfl⟩
      · obtain ⟨rfl, hlast⟩ := List.append_inj' hsteps rfl
        obtain rfl := List.singleton_inj.1 hlast
        have hfinal := hbalanced (steps ++ [last]) [] (List.append_nil _).symm
        rw [keyRun_append] at hfinal
        exact dropsOnce_of_balanced (keyRun_inv steps honce) last hfinal
      · rw [List.concat_eq_append, ← List.cons_append, ← List.append_assoc] at hsteps
        exact honce before step after (List.append_inj' hsteps rfl).1
  · intro honce before after hsteps
    refine (keyRun_inv before fun first step rest hbefore => ?_).balanced
    exact honce first step (rest ++ after) (by rw [hsteps, hbefore]; simp)

/-- A report with the usage 4 in two slots, and one without it. -/
def doubleDrop : List KeyStep :=
  [.report [0, 0, 4, 4, 0, 0, 0, 0] 400, .report [0, 0, 0, 0, 0, 0, 0, 0] 410]

/-- **Two releases for one press.** -/
theorem usb_keyboard_unbalanced : ¬∀ steps, Balanced (keyRun steps) := by
  intro hall
  obtain ⟨n, hheld, -⟩ := (hall doubleDrop).matched 4
  have hnone : held 4 (keyRun doubleDrop).trace = none := by decide
  rw [hnone] at hheld
  cases hheld

end ZealBringup.Usb
