import ZealBringup.Editor.Dispatch
import ZealBringup.Store.Stream

/-!
# Sessions

Every line typed at the prompt, and every sequence of them.

* `LineStep`, `CursorStep` — what one line does to the text and to the cursor.
* `line_editor_refines` — in every state of a session the buffer is the list of its lines.
-/

set_option maxRecDepth 10000

namespace ZealBringup.Editor

open Store Lines

variable {z : ZEdit}

/-! ## A typed line -/

/-- `zedit_save` leaves the text, and where it fails the dirty flag. -/
theorem zeditSave_spec (z : ZEdit) (m : Machine) :
    (zeditSave z m).2.2.1.text = z.text ∧ (zeditSave z m).2.2.1.length = z.length ∧
      (zeditSave z m).2.2.1.cursorLine = z.cursorLine ∧
      ((zeditSave z m).2.1.isError = true → (zeditSave z m).2.2.1.dirty = z.dirty) := by
  unfold zeditSave
  split_ifs
  · exact ⟨rfl, rfl, rfl, fun _ => rfl⟩
  · exact ⟨rfl, rfl, rfl, fun _ => rfl⟩
  · dsimp only
    split_ifs
    all_goals first
      | exact ⟨rfl, rfl, rfl, fun _ => rfl⟩
      | exact ⟨rfl, rfl, rfl, fun herror => nomatch herror⟩

/-- What a line does to the text: the edit it asks for, or nothing. -/
structure LineStep (z : ZEdit) (line : List UInt8) (r : Report) (z' : ZEdit) : Prop where
  error : r.isError = true → z'.text = z.text ∧ z'.length = z.length ∧ z'.dirty = z.dirty
  asked : ∀ edit, Asks z.cursorLine line edit →
    r.isError = false ∧ edit.Valid z.lines ∧ z'.lines = edit.apply z.lines ∧ z'.dirty = true ∨
    r.isError = true ∧
      (¬edit.Valid z.lines ∨ r = .exceeds ∧ zssMaxFile < z.length + edit.line.length + 2)
  other : (∀ edit, ¬Asks z.cursorLine line edit) → z'.text = z.text ∧ z'.length = z.length

/-- The cursor after a line, where the selected line was in range. -/
structure CursorStep (z : ZEdit) (line : List UInt8) (r : Report) (z' : ZEdit) : Prop where
  asked : ∀ edit, Asks z.cursorLine line edit → r.isError = false →
    z'.cursorLine = cursorAfter z.cursorLine z.lines.length (line.getD 0 0) edit
  refused : ∀ edit, Asks z.cursorLine line edit → r.isError = true → z'.cursorLine = z.cursorLine
  other : (∀ edit, ¬Asks z.cursorLine line edit) → z.InRange → z'.InRange

namespace Did

variable {edit : LineEdit} {cursor : ℕ} {s : Report × ZEdit}

theorem sound (hd : Did z edit cursor s) (h : z.Sound) : s.2.Sound := by
  cases hd with
  | refused => exact h
  | done _ _ _ hsound => exact hsound

theorem error (hd : Did z edit cursor s) (herror : s.1.isError = true) : s.2 = z := by
  cases hd with
  | refused => rfl
  | done hfine => exact absurd herror (by rw [hfine]; decide)

theorem cursorLine (hd : Did z edit cursor s) (hfine : s.1.isError = false) :
    s.2.cursorLine = cursor := by
  cases hd with
  | refused herror => exact absurd herror (by rw [hfine]; decide)
  | done _ _ _ _ _ hcursor => exact hcursor

theorem outcome (hd : Did z edit cursor s) :
    s.1.isError = false ∧ edit.Valid z.lines ∧ s.2.lines = edit.apply z.lines ∧ s.2.dirty = true ∨
      s.1.isError = true ∧
        (¬edit.Valid z.lines ∨ s.1 = .exceeds ∧ zssMaxFile < z.length + edit.line.length + 2) := by
  cases hd with
  | refused herror hwhy => exact .inr ⟨herror, hwhy⟩
  | done hfine hvalid hlines _ hdirty => exact .inl ⟨hfine, hvalid, hlines, hdirty⟩

end Did

theorem ZEdit.Sound.congr (h : z.Sound) {z' : ZEdit} (htext : z'.text = z.text)
    (hlength : z'.length = z.length) : z'.Sound where
  length_le := hlength ▸ h.length_le
  terminated := by rw [htext, hlength, h.terminated]
  no_nul := by
    rw [ZEdit.content, htext, hlength]
    exact h.no_nul

theorem zeditHandleCommand_quiet (g : Grid) (m : Machine) (h : z.Sound) (line : ShellLine)
    (hq : ∀ edit, ¬Asks z.cursorLine line.chars edit) :
    (zeditHandleCommand g z m line.chars).2.1.text = z.text ∧
      (zeditHandleCommand g z m line.chars).2.1.length = z.length ∧
      ((zeditHandleCommand g z m line.chars).1.isError = true →
        (zeditHandleCommand g z m line.chars).2.1.dirty = z.dirty) ∧
      (z.InRange → (zeditHandleCommand g z m line.chars).2.1.InRange) := by
  have hrange : ∀ {z' : ZEdit}, z'.text = z.text → z'.length = z.length →
      z'.cursorLine = z.cursorLine → z.InRange → z'.InRange := by
    intro z' htext hlength hcursor hr
    rwa [ZEdit.InRange, hcursor, zeditLines_congr htext hlength]
  unfold zeditHandleCommand
  split_ifs
  · exact ⟨rfl, rfl, fun _ => rfl, id⟩
  · exact ⟨rfl, rfl, fun _ => rfl, id⟩
  · exact ⟨rfl, rfl, fun _ => rfl, hrange rfl rfl rfl⟩
  · exact ⟨rfl, rfl, fun _ => rfl, hrange rfl rfl rfl⟩
  · obtain ⟨htext, hlength, hcursor, hdirty⟩ := zeditSave_spec z m
    dsimp only
    split_ifs
    · exact ⟨htext, hlength, hdirty, hrange htext hlength hcursor⟩
    · exact ⟨htext, hlength, hdirty, hrange htext hlength hcursor⟩
  · obtain ⟨htext, hlength, hdirty, hcursor⟩ := zeditEditing_quiet g h line hq
    exact ⟨htext, hlength, fun _ => hdirty, hcursor⟩

theorem zeditHandleCommand_step (g : Grid) (m : Machine) (h : z.Sound) (line : ShellLine) :
    (zeditHandleCommand g z m line.chars).2.1.Sound ∧
      LineStep z line.chars (zeditHandleCommand g z m line.chars).1
        (zeditHandleCommand g z m line.chars).2.1 ∧
      CursorStep z line.chars (zeditHandleCommand g z m line.chars).1
        (zeditHandleCommand g z m line.chars).2.1 := by
  by_cases ha : ∃ edit, Asks z.cursorLine line.chars edit
  · obtain ⟨edit, ha⟩ := ha
    have hdid := fun edit (ha : Asks z.cursorLine line.chars edit) => zeditEditing_asks g h line ha
    rw [zeditHandleCommand_asks g m ha]
    dsimp only
    refine ⟨(hdid edit ha).sound h, ⟨fun herror => ?_, fun edit ha => (hdid edit ha).outcome,
      fun hq => absurd ha (hq edit)⟩, ⟨fun edit ha hfine => (hdid edit ha).cursorLine hfine,
      fun edit ha herror => by rw [(hdid edit ha).error herror], fun hq => absurd ha (hq edit)⟩⟩
    rw [(hdid edit ha).error herror]
    exact ⟨rfl, rfl, rfl⟩
  · have hq : ∀ edit, ¬Asks z.cursorLine line.chars edit := fun edit hedit => ha ⟨edit, hedit⟩
    obtain ⟨htext, hlength, hdirty, hcursor⟩ := zeditHandleCommand_quiet g m h line hq
    exact ⟨h.congr htext hlength, ⟨fun herror => ⟨htext, hlength, hdirty herror⟩,
      fun edit hedit => absurd hedit (hq edit), fun _ => ⟨htext, hlength⟩⟩,
      ⟨fun edit hedit => absurd hedit (hq edit), fun edit hedit => absurd hedit (hq edit),
      fun _ => hcursor⟩⟩

/-- A redraw after the line is not seen in the text. -/
theorem zeditHandle_step (g : Grid) (m : Machine) (h : z.Sound) (line : ShellLine) :
    (zeditHandle g z m line.chars).2.1.Sound ∧
      LineStep z line.chars (zeditHandle g z m line.chars).1 (zeditHandle g z m line.chars).2.1 ∧
      CursorStep z line.chars (zeditHandle g z m line.chars).1
        (zeditHandle g z m line.chars).2.1 := by
  have hstep := zeditHandleCommand_step g m h line
  unfold zeditHandle
  rcases hs : zeditHandleCommand g z m line.chars with ⟨r, z', m'⟩
  rw [hs] at hstep
  dsimp only at hstep ⊢
  split_ifs
  · obtain ⟨hsound, hline, hcursor⟩ := hstep
    have hview := zeditRender_view g z'
    generalize zeditRender g z' = z'' at hview
    rw [hview]
    exact ⟨⟨hsound.length_le, hsound.terminated, hsound.no_nul⟩,
      ⟨hline.error, hline.asked, hline.other⟩, ⟨hcursor.asked, hcursor.refused, hcursor.other⟩⟩
  · exact hstep

/-! ## Every sequence of commands -/

/-- Step by step along a session: what every line keeps, every session keeps. -/
theorem zeditRun_induction {P : ZEdit → Prop} (g : Grid)
    (hstep : ∀ z m (line : ShellLine), P z → P (zeditHandle g z m line.chars).2.1)
    (m : Machine) (typed : List ShellLine) (h : P z) : P (zeditRun g z m typed).1 := by
  induction typed generalizing z m with
  | nil => exact h
  | cons line typed ih =>
    rw [zeditRun]
    split_ifs
    · exact ih _ (hstep z m line h)
    · exact h

theorem zeditRun_sound (g : Grid) (m : Machine) (h : z.Sound) (typed : List ShellLine) :
    (zeditRun g z m typed).1.Sound :=
  zeditRun_induction (P := ZEdit.Sound) g (fun _ m line h => (zeditHandle_step g m h line).1) m typed h

/-- The buffer is the list of its lines: the count, and where each of them is. -/
structure ZEdit.AsLines (z : ZEdit) : Prop where
  count : zeditLines z = z.lines.length
  bounds : ∀ number s e, zeditBounds z number = some (s, e) ↔
    1 ≤ number ∧ number ≤ z.lines.length ∧ s = lineStart z.lines (number - 1) ∧
      e = min (lineStart z.lines number) z.length
  extent : ∀ number s e, zeditBounds z number = some (s, e) → ∃ line stop,
    z.lines[number - 1]? = some line ∧
    z.content = z.content.take s ++ (line ++ stop) ++ z.content.drop e ∧
    (stop = [10] ∨ stop = [] ∧ e = z.length)

theorem asLines (z : ZEdit) : z.AsLines := by
  have hsome : ∀ number s e, zeditBounds z number = some (s, e) →
      1 ≤ number ∧ number ≤ z.lines.length ∧ s = lineStart z.lines (number - 1) ∧
        e = min (lineStart z.lines number) z.length := by
    intro number s e hb
    obtain ⟨hse, hez, body, stop, hline⟩ := zeditBounds_some hb
    have hnone := mt zeditBounds_eq_none.2 (by rw [hb]; simp)
    have hpos : 1 ≤ number := Nat.pos_of_ne_zero fun h0 => hnone (.inl h0)
    obtain ⟨hstart, hstop⟩ := hline.extent
    have hs : (z.content.take s).length = s := by
      rw [List.length_take, ZEdit.content, length_window]
      omega
    have he : s + (body ++ stop).length = e := by
      have htext := congrArg List.length hline.text_eq
      rw [List.length_append, List.length_append, hs, List.length_drop, ZEdit.content,
        length_window] at htext
      omega
    rw [hs] at hstart hstop
    rw [he, Nat.sub_add_cancel hpos, ZEdit.content, length_window] at hstop
    exact ⟨hpos, not_lt.1 fun hlt => hnone (.inr hlt), hstart, hstop⟩
  refine ⟨zeditLines_eq z, fun number s e => ⟨hsome number s e, ?_⟩, fun number s e hb => ?_⟩
  · rintro ⟨hpos, hle, rfl, rfl⟩
    rcases hb : zeditBounds z number with _ | ⟨s, e⟩
    · rcases zeditBounds_eq_none.1 hb with h0 | hlt
      · omega
      · exact absurd hle (not_le.2 hlt)
    · obtain ⟨-, -, rfl, rfl⟩ := hsome number s e hb
      rfl
  · obtain ⟨hse, hez, body, stop, hline⟩ := zeditBounds_some hb
    refine ⟨body, stop, hline.getElem?, hline.text_eq, hline.stop_eq.imp_right fun hlast =>
      ⟨hlast.1, ?_⟩⟩
    have hrest := List.drop_eq_nil_iff.1 hlast.2.1
    rw [ZEdit.content, length_window] at hrest
    omega

/-- **The editor refines a list of lines.** From any sound buffer and after any lines typed at the
prompt, the counts and bounds are those of the list of lines, the text is bounded and terminated,
and the next line does exactly one edit of the list or, with an error, nothing. -/
theorem line_editor_refines (g : Grid) (m : Machine) (h : z.Sound) (typed : List ShellLine) :
    (zeditRun g z m typed).1.Sound ∧ (zeditRun g z m typed).1.AsLines ∧
      ∀ (m' : Machine) (line : ShellLine),
        LineStep (zeditRun g z m typed).1 line.chars
          (zeditHandle g (zeditRun g z m typed).1 m' line.chars).1
          (zeditHandle g (zeditRun g z m typed).1 m' line.chars).2.1 := by
  have hsound := zeditRun_sound g m h typed
  exact ⟨hsound, asLines _, fun m' line => (zeditHandle_step g m' hsound line).2.1⟩

/-- A buffer of two lines, the last of them open. -/
def twoLines : ZEdit where
  name := [65]
  length := 4
  viewFirst := 1
  viewCount := 0
  cursorLine := 1
  active := true
  dirty := false
  existed := true
  text := fun i => [97, 98, 10, 99].getD i 0

theorem twoLines_sound : twoLines.Sound := ⟨Nat.le_of_ble_eq_true rfl, rfl, by decide⟩

/-- `x` and then `i 2 X`, on two lines: the new line goes behind the last one, which is closed for
it. -/
theorem line_editor_refines_twoLines :
    let typed : List ShellLine :=
      [⟨[120], by decide, by decide⟩, ⟨[105, 32, 50, 32, 88], by decide, by decide⟩]
    let z := (zeditRun ⟨25, 80⟩ twoLines (boot fullDevice (fun _ => .done) freshDisk) typed).1
    z.lines = [[99], [88]] ∧ z.Sound ∧ z.AsLines ∧
      ∀ (m' : Machine) (line : ShellLine),
        LineStep z line.chars (zeditHandle ⟨25, 80⟩ z m' line.chars).1
          (zeditHandle ⟨25, 80⟩ z m' line.chars).2.1 :=
  ⟨by decide, line_editor_refines _ _ twoLines_sound _⟩

end ZealBringup.Editor
