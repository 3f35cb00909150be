import ZealBringup.Bridge.Click

/-!
# The clicks of a run

Whatever the samples are, the two buttons do not touch each other: a sample does `Click.step` to each
of them.  A button whose clicks are delayed reports each gesture once, in pairs, in a run in which no
press comes while an earlier one is overdue or a double press is pending; a button in immediate mode
reports each press as a single one.

* `sample_view` — one sample, for one button.
* `Phase.step`, `Immediate.step` — what a sample does to the reports of a button.
* `ClickRun.state` — a run.
-/

namespace ZealBringup.Bridge

open Gestures

/-! ## The buttons one by one -/

/-- An edge of a button, where there is one. -/
def Click.edge (c : Click) (immediate there down : Bool) (p : TabletSample) :
    List (Report × ℤ × ℤ) × Click :=
  if there then c.input immediate down p else ([], c)

/-- What a sample does to a button that was down `before`; a press may not be `delivered`. -/
def Click.step (c : Click) (immediate before down delivered : Bool) (p : TabletSample) :
    List (Report × ℤ × ℤ) × Click :=
  let timed := c.timer down p
  let released := timed.2.edge immediate (!down && before) false p
  let pressed := released.2.edge immediate (down && !before && delivered) true p
  (timed.1 ++ released.1 ++ pressed.1, pressed.2)

/-- A press of the right button is not delivered while the left one is at something else. -/
def Routing.delivers (w : Routing) (leftPress : Bool) : MouseButton → Bool
  | .left => true
  | .right => !(leftPress && w.leftTaken) && !(w.dragging || w.titleButton || w.docPress)

namespace Mouse

variable {s : Mouse} {b b' : MouseButton} {p : TabletSample} {w : Routing}
  {immediate : MouseButton → Bool} {out : List (Report × ℤ × ℤ) × Click}

/-- The state of a button and its reports. -/
def view (s : Mouse) (b : MouseButton) : Click × List Report := (s.clicks b, s.reports b)

/-- A change of a button, with what it reports. -/
def record (v : Click × List Report) (out : List (Report × ℤ × ℤ) × Click) :
    Click × List Report := (out.2, v.2 ++ out.1.map Prod.fst)

theorem view_post : (s.post b w out).view b = record (s.view b) out := by
  have hall : out.1.filter (fun _ => true) = out.1 := List.filter_eq_self.mpr fun _ _ => rfl
  simp [view, record, post, reports, List.filter_map, Function.comp_def, hall]

theorem view_post_ne (h : b' ≠ b) : (s.post b w out).view b' = s.view b' := by
  have hne : b ≠ b' := Ne.symm h
  simp [view, post, reports, List.filter_map, Function.comp_def, hne, Function.update_of_ne h]

/-- The call for an edge, where there is one. -/
def edge (s : Mouse) (immediate : MouseButton → Bool) (b : MouseButton) (there down : Bool)
    (p : TabletSample) (w : Routing) : Mouse :=
  if there then s.clickInput immediate b down p w else s

theorem view_edge (there down : Bool) : (s.edge immediate b there down p w).view b =
    record (s.view b) ((s.view b).1.edge (immediate b) there down p) := by
  cases there with
  | false => simp [edge, Click.edge, record, view]
  | true => exact view_post

theorem view_edge_ne (h : b' ≠ b) (there down : Bool) :
    (s.edge immediate b there down p w).view b' = s.view b' := by
  cases there with
  | false => rfl
  | true => exact view_post_ne h

/-- A sample is the timer, the releases and the presses, one after the other. -/
theorem sampleAt_eq (hs : s.sampled = true) :
    bootstrapCtrlInputSampleAt immediate s p w =
      let leftPress := held p.buttons .left && !held s.lastButtons .left
      let pressed :=
        (((s.clickTimer p w).edge immediate .left
          (!held p.buttons .left && held s.lastButtons .left) false p w).edge immediate .right
            (!held p.buttons .right && held s.lastButtons .right) false p w).edge immediate .left
              leftPress true p w
      { pressed with lastButtons := p.buttons }.edge immediate .right
        (held p.buttons .right && !held s.lastButtons .right && w.delivers leftPress .right)
        true p w := by
  unfold bootstrapCtrlInputSampleAt Routing.delivers
  rw [if_neg (by simp [hs])]
  dsimp only
  generalize (held p.buttons .left && !held s.lastButtons .left) = leftPress
  cases leftPress && w.leftTaken with
  | true => simp [edge]
  | false =>
    cases w.dragging || w.titleButton || w.docPress with
    | true => simp [edge]
    | false => simp [edge]

/-- **A sample does `Click.step` to each button.** -/
theorem sample_view (hs : s.sampled = true) (b : MouseButton) :
    (bootstrapCtrlInputSampleAt immediate s p w).view b = record (s.view b)
      ((s.clicks b).step (immediate b) (held s.lastButtons b) (held p.buttons b)
        (w.delivers (held p.buttons .left && !held s.lastButtons .left) b) p) := by
  rw [sampleAt_eq hs]
  dsimp only
  have hlast : ∀ (m : Mouse) (buttons : UInt8),
      { m with lastButtons := buttons }.view b = m.view b := fun _ _ => rfl
  cases b with
  | left =>
    rw [view_edge_ne (by decide), hlast, view_edge, view_edge_ne (by decide), view_edge, clickTimer,
      view_post_ne (by decide), view_post]
    simp [record, Click.step, view, Routing.delivers]
  | right =>
    rw [view_edge, hlast, view_edge_ne (by decide), view_edge, view_edge_ne (by decide), clickTimer,
      view_post, view_post_ne (by decide)]
    simp [record, Click.step, view, post]

end Mouse

/-! ## A button whose clicks are delayed -/

/-- The reports of whole gestures. -/
abbrev pairs (gs : List (Gesture ℤ)) : List Report := gs.flatMap Gesture.pair

/-- How far the last gesture of a button is reported. -/
inductive Phase (c : Click) (gs : List (Gesture ℤ)) (rs : List Report) (down : Bool) (now : ℤ) :
    Prop where
  /-- Every gesture is. -/
  | idle (hdeadline : c.deadline = 0) (hreports : rs = pairs gs)
      (hlate : ∀ g ∈ gs.getLast?, g.due mouseDblTimeNs < now)
  /-- The last one is not. -/
  | pending (G : List (Gesture ℤ)) (g : Gesture ℤ) (hgs : gs = G ++ [g]) (hreports : rs = pairs G)
      (hdeadline : c.deadline = g.due mouseDblTimeNs) (hne : c.deadline ≠ 0)
      (hdouble : c.double = g.isDouble) (hsent : c.downSent = false)
      (hnow : now ≤ g.due mouseDblTimeNs)
  /-- The press of the last one is, and the button is down. -/
  | opened (G : List (Gesture ℤ)) (g : Gesture ℤ) (hgs : gs = G ++ [g])
      (hreports : rs = pairs G ++ [⟨g.isDouble, true⟩])
      (hdeadline : c.deadline = g.due mouseDblTimeNs) (hne : c.deadline ≠ 0)
      (hdouble : c.double = g.isDouble) (hsent : c.downSent = true)
      (hnow : g.due mouseDblTimeNs < now) (hdown : down = true)

/-- A press comes at a time that the clock can add the double-click time to, while no earlier one is
overdue and no double press is pending. -/
def Click.Fits (c : Click) (now : ℤ) : Prop :=
  0 < now ∧ now + mouseDblTimeNs < 2 ^ 63 ∧
    (c.deadline ≠ 0 → now ≤ c.deadline ∧ c.double = false)

instance (c : Click) (now : ℤ) : Decidable (c.Fits now) :=
  inferInstanceAs (Decidable (_ ∧ _ ∧ (_ → _)))

variable {c : Click} {gs : List (Gesture ℤ)} {rs : List Report} {before down : Bool} {last : ℤ}
  {p : TabletSample}

theorem timer_of_zero (h : c.deadline = 0) (down : Bool) : c.timer down p = ([], c) :=
  if_neg fun hboth => hboth.1 h

theorem timer_of_le (h : p.nowNs ≤ c.deadline) (down : Bool) : c.timer down p = ([], c) :=
  if_neg fun hboth => absurd hboth.2 (not_lt.mpr h)

/-- The timer reports the press of a gesture that is overdue, and the release when the button is
up. -/
theorem Phase.timer (h : Phase c gs rs before last) (hnow : last ≤ p.nowNs) (down : Bool) :
    Phase (c.timer down p).2 gs (rs ++ (c.timer down p).1.map Prod.fst) down p.nowNs := by
  cases h with
  | idle hdeadline hreports hlate =>
    rw [timer_of_zero hdeadline, List.map_nil, List.append_nil]
    exact .idle hdeadline hreports fun g hg => lt_of_lt_of_le (hlate g hg) hnow
  | pending G g hgs hreports hdeadline hne hdouble hsent hbefore =>
    by_cases hdue : p.nowNs ≤ c.deadline
    · rw [timer_of_le hdue, List.map_nil, List.append_nil]
      exact .pending G g hgs hreports hdeadline hne hdouble hsent (hdeadline ▸ hdue)
    · rw [not_le] at hdue
      unfold Click.timer
      rw [if_pos ⟨hne, hdue⟩]
      cases down with
      | true =>
        refine .opened G g hgs ?_ hdeadline hne hdouble rfl (hdeadline ▸ hdue) rfl
        simp [hsent, hreports, hdouble]
      | false =>
        refine .idle rfl ?_ fun g' hg' => ?_
        · simp [hsent, hreports, hdouble, hgs, Gesture.pair]
        · rw [hgs, List.getLast?_concat, Option.mem_some_iff] at hg'
          exact hg' ▸ hdeadline ▸ hdue
  | opened G g hgs hreports hdeadline hne hdouble hsent hbefore hdown =>
    have hdue : c.deadline < p.nowNs := by omega
    unfold Click.timer
    rw [if_pos ⟨hne, hdue⟩]
    cases down with
    | true =>
      refine .opened G g hgs ?_ hdeadline hne hdouble rfl (hdeadline ▸ hdue) rfl
      simp [hsent, hreports]
    | false =>
      refine .idle rfl ?_ fun g' hg' => ?_
      · simp [hsent, hreports, hdouble, hgs, Gesture.pair]
      · rw [hgs, List.getLast?_concat, Option.mem_some_iff] at hg'
        exact hg' ▸ hdeadline ▸ hdue

/-- A release reports nothing by itself. -/
theorem edge_release (c : Click) (there : Bool) (p : TabletSample) :
    c.edge false there false p = ([], c) := by
  cases there <;> simp [Click.edge, Click.input]

theorem toI64_of_lt {n : ℤ} (h0 : 0 ≤ n) (h : n < 2 ^ 63) : toI64 n = n := by
  unfold toI64
  exact Int.bmod_eq_of_le (by omega) (by omega)

/-- A press that fits starts a gesture or makes a double press of the last one. -/
theorem Phase.press (h : Phase c gs rs false last) (hnow : last ≤ p.nowNs) (hfit : c.Fits p.nowNs) :
    c.timer true p = ([], c) ∧
      Phase (c.input false true p).2 (push mouseDblTimeNs gs p.nowNs)
        (rs ++ (c.input false true p).1.map Prod.fst) true p.nowNs := by
  obtain ⟨hpos, hclock, hpending⟩ := hfit
  cases h with
  | idle hdeadline hreports hlate =>
    refine ⟨timer_of_zero hdeadline true, ?_⟩
    have hlate' : ∀ g ∈ gs.getLast?, g.due mouseDblTimeNs < p.nowNs := fun g hg =>
      lt_of_lt_of_le (hlate g hg) hnow
    have hdbl : 0 < mouseDblTimeNs := by decide
    have hdue : toI64 (p.nowNs + mouseDblTimeNs) = p.nowNs + mouseDblTimeNs :=
      toI64_of_lt (by omega) hclock
    rw [push_late hlate']
    simp only [Click.input, hdeadline, Bool.false_eq_true, and_false, if_false, Bool.not_true,
      if_true, List.map_nil, List.append_nil]
    refine .pending gs (.single p.nowNs) rfl hreports hdue ?_ rfl rfl ?_
    · show toI64 (p.nowNs + mouseDblTimeNs) ≠ 0
      omega
    · show p.nowNs ≤ p.nowNs + mouseDblTimeNs
      omega
  | pending G g hgs hreports hdeadline hne hdouble hsent hbefore =>
    obtain ⟨hle, hsingle⟩ := hpending hne
    refine ⟨timer_of_le hle true, ?_⟩
    cases g with
    | double t u =>
      rw [hdouble] at hsingle
      cases hsingle
    | single t =>
      have hsoon : p.nowNs ≤ t + mouseDblTimeNs := hle.trans_eq hdeadline
      rw [hgs, push_soon hsoon]
      simp only [Click.input, hne, Bool.false_eq_true, and_false, if_false, Bool.not_true,
        List.map_nil, List.append_nil]
      exact .pending G (.double t p.nowNs) rfl hreports rfl (ne_of_gt hpos) rfl rfl le_rfl
  | opened G g hgs hreports hdeadline hne hdouble hsent hbefore hdown => cases hdown

/-- **A sample** for a button whose clicks are delayed. -/
theorem Phase.step (h : Phase c gs rs before last) (hnow : last ≤ p.nowNs) (delivered : Bool)
    (hfit : (down && !before && delivered) = true → c.Fits p.nowNs) :
    Phase (c.step false before down delivered p).2
      (if (down && !before && delivered) = true then push mouseDblTimeNs gs p.nowNs else gs)
      (rs ++ (c.step false before down delivered p).1.map Prod.fst) down p.nowNs := by
  unfold Click.step
  dsimp only
  rw [edge_release]
  by_cases hpress : (down && !before && delivered) = true
  · have hfit' := hfit hpress
    simp only [Bool.and_eq_true, Bool.not_eq_true'] at hpress
    obtain ⟨⟨rfl, rfl⟩, rfl⟩ := hpress
    obtain ⟨htimer, hphase⟩ := h.press hnow hfit'
    rw [htimer]
    exact hphase
  · have htimed := h.timer hnow down
    rw [if_neg hpress, Click.edge, if_neg hpress, List.append_nil, List.append_nil]
    exact htimed

/-! ## A button in immediate mode -/

/-- Where there is no press, nothing is kept from the button. -/
theorem step_delivered {immediate delivered : Bool}
    (h : (down && !before) = true → delivered = true) :
    c.step immediate before down delivered p = c.step immediate before down true p := by
  have hpress : (down && !before && delivered) = (down && !before && true) := by
    cases hedge : down && !before with
    | false => rfl
    | true => rw [h hedge]
  unfold Click.step
  rw [hpress]

/-- Every press is reported as a single one, and its release when there was one. -/
inductive Immediate (c : Click) (presses : List ℤ) (rs : List Report) (down : Bool) : Prop where
  | up (hdeadline : c.deadline = 0) (hreports : rs = pairs (presses.map .single))
      (hdown : down = false)
  | pressed (before : List ℤ) (t : ℤ) (hpresses : presses = before ++ [t])
      (hdeadline : c.deadline = 0)
      (hreports : rs = pairs (before.map .single) ++ [⟨false, true⟩]) (hdown : down = true)

/-- **A sample** for a button in immediate mode. -/
theorem Immediate.step {presses : List ℤ} (h : Immediate c presses rs before) :
    Immediate (c.step true before down true p).2
      (if (down && !before) = true then presses ++ [p.nowNs] else presses)
      (rs ++ (c.step true before down true p).1.map Prod.fst) down := by
  cases h with
  | up hdeadline hreports hbefore =>
    subst hbefore
    have htimer := timer_of_zero (p := p) hdeadline down
    cases down with
    | false =>
      refine .up ?_ ?_ rfl <;> simp [Click.step, Click.edge, htimer, hdeadline, hreports]
    | true =>
      refine .pressed presses p.nowNs rfl ?_ ?_ rfl <;>
        simp [Click.step, Click.edge, Click.input, htimer, hdeadline, hreports]
  | pressed earlier t hpresses hdeadline hreports hbefore =>
    subst hbefore
    have htimer := timer_of_zero (p := p) hdeadline down
    cases down with
    | false =>
      refine .up ?_ ?_ rfl <;> simp [Click.step, Click.edge, Click.input, htimer, hdeadline,
        hreports, hpresses, Gesture.pair, Gesture.isDouble]
    | true =>
      refine .pressed earlier t hpresses ?_ ?_ rfl <;>
        simp [Click.step, Click.edge, htimer, hdeadline, hreports]

/-! ## A run -/

/-- The mouse, the presses of each button that were delivered, and the time of the last sample. -/
structure Track where
  mouse : Mouse
  presses : MouseButton → List ℤ
  nowNs : ℤ

namespace Track

/-- A press of the button is delivered by the sample. -/
def pressed (t : Track) (p : TabletSample) (w : Routing) (b : MouseButton) : Bool :=
  held p.buttons b && !held t.mouse.lastButtons b &&
    w.delivers (held p.buttons .left && !held t.mouse.lastButtons .left) b

def sample (immediate : MouseButton → Bool) (t : Track) (p : TabletSample) (w : Routing) : Track where
  mouse := Mouse.bootstrapCtrlInputSampleAt immediate t.mouse p w
  presses b :=
    if t.mouse.sampled && t.pressed p w b then t.presses b ++ [p.nowNs] else t.presses b
  nowNs := p.nowNs

/-- What a sample must be for a button: where clicks are delayed, a press that is delivered fits; in
immediate mode the button is up in the first sample, and no press is kept from it. -/
def Fits (immediate : MouseButton → Bool) (t : Track) (p : TabletSample) (w : Routing)
    (b : MouseButton) : Prop :=
  (immediate b = true → t.mouse.sampled = false → held p.buttons b = false) ∧
    (immediate b = true → t.mouse.sampled = true →
      (held p.buttons b && !held t.mouse.lastButtons b) = true → t.pressed p w b = true) ∧
    (immediate b = false → t.mouse.sampled = true → t.pressed p w b = true →
      (t.mouse.clicks b).Fits p.nowNs)

instance (immediate : MouseButton → Bool) (t : Track) (p : TabletSample) (w : Routing)
    (b : MouseButton) : Decidable (t.Fits immediate p w b) :=
  inferInstanceAs (Decidable ((_ → _ → _) ∧ (_ → _ → _ → _) ∧ (_ → _ → _ → _)))

/-- The gestures of the presses: all of them single ones in immediate mode. -/
def gestures (immediate : MouseButton → Bool) (t : Track) (b : MouseButton) : List (Gesture ℤ) :=
  if immediate b then (t.presses b).map .single
  else Gestures.gestures mouseDblTimeNs (t.presses b)

end Track

/-- A run of samples whose times do not decrease. -/
inductive ClickRun (immediate : MouseButton → Bool) : Track → Prop
  | nil (nowNs : ℤ) : ClickRun immediate ⟨Mouse.fresh, fun _ => [], nowNs⟩
  | sample {t : Track} {p : TabletSample} {w : Routing} (hrun : ClickRun immediate t)
      (hnow : t.nowNs ≤ p.nowNs) (hfits : ∀ b, t.Fits immediate p w b) :
      ClickRun immediate (t.sample immediate p w)

/-- How far a button is reported. -/
def Track.State (immediate : MouseButton → Bool) (t : Track) (b : MouseButton) : Prop :=
  if immediate b then
    Immediate (t.mouse.clicks b) (t.presses b) (t.mouse.reports b) (held t.mouse.lastButtons b)
  else
    Phase (t.mouse.clicks b) (t.gestures immediate b) (t.mouse.reports b)
      (held t.mouse.lastButtons b) t.nowNs

namespace Mouse

variable {s : Mouse} {w : Routing} {immediate : MouseButton → Bool}

/-- A sample stores the buttons. -/
theorem sampleAt_lastButtons : (bootstrapCtrlInputSampleAt immediate s p w).lastButtons = p.buttons ∧
    (bootstrapCtrlInputSampleAt immediate s p w).sampled = true := by
  have hedge : ∀ (m : Mouse) (b : MouseButton) (there down : Bool),
      (m.edge immediate b there down p w).lastButtons = m.lastButtons ∧
        (m.edge immediate b there down p w).sampled = m.sampled := fun m b there down => by
    cases there <;> exact ⟨rfl, rfl⟩
  by_cases hs : s.sampled = true
  · rw [sampleAt_eq hs]
    dsimp only
    rw [(hedge _ _ _ _).1, (hedge _ _ _ _).2]
    dsimp only
    rw [(hedge _ _ _ _).2, (hedge _ _ _ _).2, (hedge _ _ _ _).2]
    exact ⟨rfl, hs⟩
  · unfold bootstrapCtrlInputSampleAt
    rw [if_pos (by simpa using hs)]
    exact ⟨rfl, rfl⟩

end Mouse

theorem held_zero (b : MouseButton) : held 0 b = false := by cases b <;> decide

namespace ClickRun

variable {immediate : MouseButton → Bool} {t : Track}

/-- Before the first sample nothing has happened. -/
theorem fresh (h : ClickRun immediate t) (hs : t.mouse.sampled = false) :
    t.mouse = Mouse.fresh ∧ t.presses = fun _ => [] := by
  cases h with
  | nil nowNs => exact ⟨rfl, rfl⟩
  | sample hrun hnow hfits =>
    have hsampled := Mouse.sampleAt_lastButtons.2.symm.trans hs
    cases hsampled

/-- **A run**, for each button. -/
theorem state (h : ClickRun immediate t) (b : MouseButton) : t.State immediate b := by
  induction h with
  | nil nowNs =>
    unfold Track.State Track.gestures
    split
    · exact .up rfl rfl (held_zero b)
    · exact .idle rfl rfl fun g hg => by simp [Gestures.gestures] at hg
  | @sample t p w hrun hnow hfits ih =>
    have hfit := hfits b
    have hbuttons : (t.sample immediate p w).mouse.lastButtons = p.buttons :=
      Mouse.sampleAt_lastButtons.1
    obtain ⟨hfirst, hkept, hfit⟩ := hfit
    unfold Track.State at ih ⊢
    rw [hbuttons]
    by_cases hs : t.mouse.sampled = true
    · -- the step of the button, and the press that is delivered
      have hview := @Mouse.sample_view t.mouse p w immediate hs b
      obtain ⟨hclick, hreports⟩ := Prod.mk.inj hview
      have hclick' : (t.sample immediate p w).mouse.clicks b = _ := hclick
      have hreports' : (t.sample immediate p w).mouse.reports b = _ := hreports
      rw [hclick', hreports']
      by_cases himm : immediate b = true
      · have hkept' := hkept himm hs
        rw [if_pos himm] at ih ⊢
        have hpresses : (t.sample immediate p w).presses b =
            if (held p.buttons b && !held t.mouse.lastButtons b) = true then
              t.presses b ++ [p.nowNs] else t.presses b := by
          show (if (t.mouse.sampled && t.pressed p w b) = true then _ else _) = _
          rw [hs, Bool.true_and]
          by_cases hedge : (held p.buttons b && !held t.mouse.lastButtons b) = true
          · rw [if_pos hedge, if_pos (hkept' hedge)]
          · rw [if_neg hedge, if_neg]
            intro hpressed
            unfold Track.pressed at hpressed
            exact hedge (Bool.and_eq_true_iff.mp hpressed).1
        have hdelivered : (held p.buttons b && !held t.mouse.lastButtons b) = true →
            w.delivers (held p.buttons .left && !held t.mouse.lastButtons .left) b = true :=
          fun hedge => (Bool.and_eq_true_iff.mp (hkept' hedge)).2
        rw [hpresses, himm, step_delivered hdelivered]
        exact ih.step
      · rw [if_neg himm] at ih ⊢
        have himm' : immediate b = false := by simpa using himm
        have hgestures : (t.sample immediate p w).gestures immediate b =
            if t.pressed p w b = true then
              push mouseDblTimeNs (t.gestures immediate b) p.nowNs else t.gestures immediate b := by
          unfold Track.gestures
          rw [if_neg himm, if_neg himm]
          show Gestures.gestures mouseDblTimeNs
            (if (t.mouse.sampled && t.pressed p w b) = true then _ else _) = _
          rw [hs, Bool.true_and]
          split
          · exact gestures_concat _
          · rfl
        rw [hgestures, himm']
        exact ih.step hnow _ (hfit himm' hs)
    · -- the first sample, which only stores the buttons
      have hs' : t.mouse.sampled = false := by simpa using hs
      obtain ⟨hmouse, hpresses⟩ := hrun.fresh hs'
      have hstored : (t.sample immediate p w).mouse =
          { Mouse.fresh with lastButtons := p.buttons, sampled := true } := by
        show Mouse.bootstrapCtrlInputSampleAt immediate t.mouse p w = _
        rw [hmouse]
        rfl
      have hnone : (t.sample immediate p w).presses b = [] := by
        show (if (t.mouse.sampled && t.pressed p w b) = true then _ else t.presses b) = _
        rw [hs', Bool.false_and, if_neg Bool.false_ne_true, hpresses]
      unfold Track.gestures
      rw [hstored, hnone]
      by_cases himm : immediate b = true
      · rw [if_pos himm]
        exact .up rfl rfl (hfirst himm hs')
      · rw [if_neg himm, if_neg himm]
        exact .idle rfl rfl fun g hg => by simp [Gestures.gestures] at hg

end ClickRun

/-! ## What is reported -/

section Reported

variable {immediate : MouseButton → Bool} {t : Track}

/-- The last gesture may be reported in part; no other one may. -/
theorem ClickRun.reported (h : ClickRun immediate t) (b : MouseButton) :
    t.mouse.reports b = pairs (t.gestures immediate b) ∨
      ∃ G g, t.gestures immediate b = G ++ [g] ∧
        (t.mouse.reports b = pairs G ∨
          t.mouse.reports b = pairs G ++ [⟨g.isDouble, true⟩] ∧
            held t.mouse.lastButtons b = true) := by
  have hstate := h.state b
  unfold Track.State at hstate
  by_cases himm : immediate b = true
  · rw [if_pos himm] at hstate
    unfold Track.gestures
    rw [if_pos himm]
    cases hstate with
    | up hdeadline hreports hdown => exact Or.inl hreports
    | pressed earlier u hpresses hdeadline hreports hdown =>
      exact Or.inr ⟨earlier.map .single, .single u, by simp [hpresses], Or.inr ⟨hreports, hdown⟩⟩
  · rw [if_neg himm] at hstate
    cases hstate with
    | idle hdeadline hreports hlate => exact Or.inl hreports
    | pending G g hgs hreports => exact Or.inr ⟨G, g, hgs, Or.inl hreports⟩
    | opened G g hgs hreports hdeadline hne hdouble hsent hnow hdown =>
      exact Or.inr ⟨G, g, hgs, Or.inr ⟨hreports, hdown⟩⟩

/-- Once a sample has come after the last gesture is due, everything is reported when the button is
up; in immediate mode at once. -/
theorem ClickRun.settled (h : ClickRun immediate t) (b : MouseButton)
    (hdue : immediate b = true ∨
      ∀ g ∈ (t.gestures immediate b).getLast?, g.due mouseDblTimeNs < t.nowNs)
    (hup : held t.mouse.lastButtons b = false) :
    t.mouse.reports b = pairs (t.gestures immediate b) := by
  have hstate := h.state b
  unfold Track.State at hstate
  by_cases himm : immediate b = true
  · rw [if_pos himm] at hstate
    unfold Track.gestures
    rw [if_pos himm]
    cases hstate with
    | up hdeadline hreports hdown => exact hreports
    | pressed earlier u hpresses hdeadline hreports hdown => exact absurd (hup.symm.trans hdown) nofun
  · rw [if_neg himm] at hstate
    cases hstate with
    | idle hdeadline hreports hlate => exact hreports
    | pending G g hgs hreports hdeadline hne hdouble hsent hnow =>
      have hlate := hdue.resolve_left himm g (by rw [hgs, List.getLast?_concat]; rfl)
      exact absurd hnow (not_le.mpr hlate)
    | opened G g hgs hreports hdeadline hne hdouble hsent hnow hdown =>
      exact absurd (hup.symm.trans hdown) nofun

/-- Each press that is delivered belongs to one gesture. -/
theorem Track.gestures_presses (t : Track) (b : MouseButton) :
    (t.gestures immediate b).flatMap Gesture.times = t.presses b := by
  unfold Track.gestures
  split
  · simp [List.flatMap_map, Gesture.times]
  · exact gestures_times _

/-- **The reports of a button come in pairs**, one for each gesture of its presses in their order,
except that the last gesture may still be open or not reported yet; it is reported in whole when a
sample has come after it is due and the button is up. -/
theorem clicks_paired (h : ClickRun immediate t) (b : MouseButton) :
    Paired (t.mouse.reports b) = true ∧
      (t.gestures immediate b).flatMap Gesture.times = t.presses b ∧
      (t.mouse.reports b = pairs (t.gestures immediate b) ∨
        ∃ G g, t.gestures immediate b = G ++ [g] ∧
          (t.mouse.reports b = pairs G ∨
            t.mouse.reports b = pairs G ++ [⟨g.isDouble, true⟩] ∧
              held t.mouse.lastButtons b = true)) ∧
      ((immediate b = true ∨
          ∀ g ∈ (t.gestures immediate b).getLast?, g.due mouseDblTimeNs < t.nowNs) →
        held t.mouse.lastButtons b = false →
        t.mouse.reports b = pairs (t.gestures immediate b)) := by
  refine ⟨?_, t.gestures_presses b, h.reported b, h.settled b⟩
  have hpairs : ∀ gs : List (Gesture ℤ), Paired (pairs gs) = true := fun gs => by
    have hnil := paired_pairs gs []
    rwa [List.append_nil] at hnil
  obtain hall | ⟨G, g, -, hnone | ⟨hopen, -⟩⟩ := h.reported b
  · rw [hall]
    exact hpairs _
  · rw [hnone]
    exact hpairs _
  · rw [hopen, paired_pairs]
    rfl

end Reported

/-- A window manager that takes nothing. -/
def plainRouting : Routing where
  originX := 0
  originY := 0
  leftTaken := false
  dragging := false
  titleButton := false
  docPress := false

/-- Samples at one place. -/
def feed (immediate : Bool) (samples : List (UInt8 × ℤ)) : Track :=
  samples.foldl
    (fun t e => t.sample (fun _ => immediate) ⟨e.1, 0, 0, e.2⟩ plainRouting)
    ⟨Mouse.fresh, fun _ => [], 0⟩

/-- A click that is followed by a sample after its deadline. -/
theorem clicks_paired_single :
    Paired ((feed false [(0, 1), (1, 2), (0, 3), (0, 200000000)]).mouse.reports .left) = true ∧
      (feed false [(0, 1), (1, 2), (0, 3), (0, 200000000)]).mouse.reports .left =
        pairs ((feed false [(0, 1), (1, 2), (0, 3), (0, 200000000)]).gestures
          (fun _ => false) .left) := by
  have hrun : ClickRun (fun _ => false) (feed false [(0, 1), (1, 2), (0, 3), (0, 200000000)]) := by
    refine .sample (.sample (.sample (.sample (.nil 0) ?_ ?_) ?_ ?_) ?_ ?_) ?_ ?_ <;>
      first | decide | (intro b; cases b <;> decide)
  have hpaired := clicks_paired hrun .left
  exact ⟨hpaired.1, hpaired.2.2.2 (Or.inr (by decide)) (by decide)⟩

/-- **A press in the first sample after the deadline of another one** leaves a press without its
release; in immediate mode two presses within the double-click time are two single ones. -/
theorem clicks_unpaired :
    Paired ((feed false [(0, 1), (1, 2), (0, 3), (1, 200000000), (0, 200000001)]).mouse.reports
      .left) = false ∧
    (feed true [(0, 1), (1, 2), (0, 3), (1, 4), (0, 5)]).mouse.reports .left =
      [⟨false, true⟩, ⟨false, false⟩, ⟨false, true⟩, ⟨false, false⟩] ∧
    (4 : ℤ) ≤ 2 + mouseDblTimeNs := by decide

end ZealBringup.Bridge
