import ZealBringup.Editor.Refine

/-!
# From a line to its edit

* `zeditEditing_asks` — a line that asks for an edit reaches the branch that does it.
* `zeditEditing_quiet` — any other line leaves the text alone, and the cursor in range.
-/

namespace ZealBringup.Editor

open Store Lines

variable {z : ZEdit}

/-! ## The editing branches -/

/-- `e` and `c`, which differ in the line they name and in what they print. -/
theorem replace_did (h : z.Sound) {body : List UInt8} (hbody : Body body) (number : ℕ)
    {missing : Report} (hmissing : missing.isError = true) {report : ZEdit → Report}
    (hreport : ∀ z, (report z).isError = false) :
    Did z (.replace number body) z.cursorLine
      (match zeditBounds z number with
      | none => (missing, z)
      | some (start, stop) =>
          match zeditSplice z start stop body false with
          | none => (.exceeds, z)
          | some z => (report z, z)) := by
  rcases hb : zeditBounds z number with _ | ⟨start, stop⟩
  · refine .refused hmissing (.inl ?_)
    rintro ⟨hpos, hle⟩
    rcases zeditBounds_eq_none.1 hb with h0 | hlt
    · omega
    · exact absurd hle (not_le.2 hlt)
  · obtain ⟨hse, hez, hvalid, hdone⟩ := replace_some h hbody hb
    dsimp only
    rcases hs : zeditSplice z start stop body false with _ | z'
    · exact .refused rfl (.inr ⟨rfl, splice_refused hez hs⟩)
    · obtain ⟨hlines, hsound, htext⟩ := hdone z' hs
      exact .done (hreport z') hvalid hlines hsound htext.dirty htext.cursorLine htext.active

theorem zeditE_did (h : z.Sound) {body : List UInt8} (hbody : Body body) :
    Did z (.replace z.cursorLine body) z.cursorLine (zeditE z body) :=
  replace_did h hbody z.cursorLine rfl fun _ => rfl

theorem zeditC_did (h : z.Sound) {body : List UInt8} (hbody : Body body) (number : ℕ) :
    Did z (.replace number body) z.cursorLine (zeditC z number body) :=
  replace_did h hbody number rfl fun _ => rfl

theorem zeditN_did (h : z.Sound) {body : List UInt8} (hbody : Body body) :
    Did z (.insert z.cursorLine body) z.cursorLine (zeditN z body) := by
  unfold zeditN
  rcases hat : zeditInsertAt z z.cursorLine with _ | start
  · exact .refused rfl (.inl (insertAt_none body hat))
  · obtain ⟨hstart, hvalid, hdone⟩ := insertAt_some h hbody hat
    dsimp only
    rcases hs : zeditSplice z start start body (decide (z.cursorLine = zeditLines z + 1)) with _ | z'
    · exact .refused rfl (.inr ⟨rfl, splice_refused hstart hs⟩)
    · obtain ⟨hlines, hsound, htext⟩ := hdone z' hs
      exact .done rfl hvalid hlines hsound htext.dirty htext.cursorLine htext.active

/-- The cursor after an insertion before line `number`. -/
def shifted (cursor number : ℕ) : ℕ := if number ≤ cursor then cursor + 1 else cursor

theorem zeditI_did (h : z.Sound) {body : List UInt8} (hbody : Body body) (number : ℕ) :
    Did z (.insert number body) (shifted z.cursorLine number) (zeditI z number body) := by
  unfold zeditI
  rcases hat : zeditInsertAt z number with _ | start
  · exact .refused rfl (.inl (insertAt_none body hat))
  · obtain ⟨hstart, hvalid, hdone⟩ := insertAt_some h hbody hat
    dsimp only
    rcases hs : zeditSplice z start start body (decide (number = zeditLines z + 1)) with _ | z'
    · exact .refused rfl (.inr ⟨rfl, splice_refused hstart hs⟩)
    · obtain ⟨hlines, hsound, htext⟩ := hdone z' hs
      have hcursor := htext.cursorLine
      unfold shifted
      rw [← hcursor]
      by_cases hle : number ≤ z'.cursorLine
      · rw [if_pos hle]
        simp only [if_pos hle]
        exact .done rfl hvalid hlines ⟨hsound.length_le, hsound.terminated, hsound.no_nul⟩
          htext.dirty rfl htext.active
      · rw [if_neg hle]
        simp only [if_neg hle]
        exact .done rfl hvalid hlines hsound htext.dirty rfl htext.active

theorem zeditA_did (h : z.Sound) {body : List UInt8} (hbody : Body body) :
    Did z (.append body) z.cursorLine (zeditA z body) := by
  unfold zeditA
  dsimp only
  rcases hs : zeditSplice z z.length z.length body true with _ | z'
  · exact .refused rfl (.inr ⟨rfl, splice_refused le_rfl hs⟩)
  · obtain ⟨hsound, htext⟩ := h.splice hbody le_rfl le_rfl hs
    exact .done rfl trivial (lines_append hbody hs) hsound htext.dirty htext.cursorLine htext.active

/-- How many lines are left after a deletion. -/
theorem zeditLines_delete {z' : ZEdit} {number : ℕ}
    (hlines : z'.lines = (LineEdit.delete number).apply z.lines)
    (hvalid : (LineEdit.delete number).Valid z.lines) : zeditLines z' = z.lines.length - 1 := by
  have hlt : number - 1 < z.lines.length := by
    obtain ⟨hpos, hle⟩ := hvalid
    omega
  rw [zeditLines_eq, ← ZEdit.lines, hlines, LineEdit.apply, List.length_eraseIdx_of_lt hlt]

theorem zeditX_did (h : z.Sound) :
    Did z (.delete z.cursorLine) (zeditClamp z.cursorLine (z.lines.length - 1)) (zeditX z) := by
  unfold zeditX
  rcases hd : zeditDeleteLine z z.cursorLine with _ | z'
  · exact .refused rfl (.inl (zeditDeleteLine_none hd))
  · obtain ⟨hvalid, hlines, hsound, htext⟩ := zeditDeleteLine_some h hd
    rw [← zeditLines_delete hlines hvalid]
    refine .done rfl hvalid hlines ⟨hsound.length_le, hsound.terminated, hsound.no_nul⟩ htext.dirty
      ?_ htext.active
    dsimp only
    rw [htext.cursorLine]

/-- The cursor after a deletion of line `number` that leaves so many lines. -/
def unshifted (cursor number lines : ℕ) : ℕ :=
  zeditClamp (if number < cursor then cursor - 1 else cursor) lines

theorem zeditD_did (h : z.Sound) (number : ℕ) :
    Did z (.delete number) (unshifted z.cursorLine number (z.lines.length - 1))
      (zeditD z number []) := by
  unfold zeditD
  rw [if_neg (by simp)]
  rcases hd : zeditDeleteLine z number with _ | z'
  · exact .refused rfl (.inl (zeditDeleteLine_none hd))
  · obtain ⟨hvalid, hlines, hsound, htext⟩ := zeditDeleteLine_some h hd
    rw [← zeditLines_delete hlines hvalid]
    refine .done rfl hvalid hlines ⟨hsound.length_le, hsound.terminated, hsound.no_nul⟩ htext.dirty
      ?_ htext.active
    dsimp only
    rw [htext.cursorLine]
    rfl

/-! ## From the line to its branch -/

/-- Where an edit leaves the cursor: only `i` moves it along with an insertion. -/
def cursorAfter (cursor lines : ℕ) (command : UInt8) : LineEdit → ℕ
  | .insert number _ => if command = 105 then shifted cursor number else cursor
  | .delete number => unshifted cursor number (lines - 1)
  | .replace _ _ => cursor
  | .append _ => cursor

theorem ShellLine.body (line : ShellLine) {body : List UInt8} (h : body ⊆ line.chars) : Body body where
  no_newline hmem := absurd (line.printable _ (h hmem)).1 (by decide)
  no_nul hmem := absurd (line.printable _ (h hmem)).1 (by decide)

theorem not_digit_space (body : List UInt8) :
    ¬(48 ≤ (32 :: body).getD 0 0 ∧ (32 :: body).getD 0 0 ≤ 57) := by
  rw [List.getD_cons_zero]
  decide

/-- A line that asks for an edit reaches the branch that does it. -/
theorem zeditEditing_asks (g : Grid) (h : z.Sound) (line : ShellLine) {edit : LineEdit}
    (ha : Asks z.cursorLine line.chars edit) :
    Did z edit (cursorAfter z.cursorLine z.lines.length (line.chars.getD 0 0) edit)
      (zeditEditing g z line.chars) := by
  have hbody : ∀ body ⊆ line.chars, Body body := fun body hsub => line.body hsub
  generalize line.chars = chars at ha hbody ⊢
  cases ha with
  | append body =>
    have hb := hbody body fun c hc => by simp [hc]
    simpa [zeditEditing, cursorAfter] using zeditA_did h hb
  | appendEmpty =>
    simpa [zeditEditing, cursorAfter] using zeditA_did h ⟨by simp, by simp⟩
  | edit body =>
    have hb := hbody body fun c hc => by simp [hc]
    simpa [zeditEditing, cursorAfter] using zeditE_did h hb
  | insertHere body =>
    have hb := hbody body fun c hc => by simp [hc]
    simpa [zeditEditing, cursorAfter] using zeditN_did h hb
  | deleteHere =>
    simpa [zeditEditing, cursorAfter, unshifted] using zeditX_did h
  | insert hd body =>
    have hb := hbody body fun c hc => by simp [hc]
    simpa [zeditEditing, zeditNumbered, zeditNumber_decimal hd (not_digit_space body), cursorAfter]
      using zeditI_did h hb _
  | change hd body =>
    have hb := hbody body fun c hc => by simp [hc]
    simpa [zeditEditing, zeditNumbered, zeditNumber_decimal hd (not_digit_space body), cursorAfter]
      using zeditC_did h hb _
  | @delete digits number hd =>
    have hnumber := zeditNumber_decimal hd (p := []) (by decide)
    rw [List.append_nil] at hnumber
    simpa [zeditEditing, zeditNumbered, hnumber, cursorAfter] using zeditD_did h number

/-- Such a line is none of the commands that close, save or help. -/
theorem zeditHandleCommand_asks (g : Grid) (m : Machine) {line : List UInt8} {edit : LineEdit}
    (ha : Asks z.cursorLine line edit) :
    zeditHandleCommand g z m line =
      ((zeditEditing g z line).1, (zeditEditing g z line).2, m) := by
  cases ha <;> simp [zeditHandleCommand]

/-! ## All other lines -/

/-- The cursor is on a line, or on the first place of an empty buffer. -/
def ZEdit.InRange (z : ZEdit) : Prop := 1 ≤ z.cursorLine ∧ z.cursorLine ≤ max 1 (zeditLines z)

/-- The text is left alone, and the cursor stays in range. -/
structure Quiet (z z' : ZEdit) : Prop where
  text : z'.text = z.text
  length : z'.length = z.length
  dirty : z'.dirty = z.dirty
  cursor : z.InRange → z'.InRange

theorem Quiet.refl (z : ZEdit) : Quiet z z := ⟨rfl, rfl, rfl, id⟩

theorem zeditLines_congr {z' : ZEdit} (htext : z'.text = z.text) (hlength : z'.length = z.length) :
    zeditLines z' = zeditLines z := by
  rw [zeditLines, zeditLines, htext, hlength]

theorem zeditLines_lt (h : z.Sound) : zeditLines z < 2 ^ 32 := by
  have hle : (splitLines 10 z.content).length ≤ _ := length_splitLines_le z.content
  rw [ZEdit.content, length_window] at hle
  have hmax := h.length_le
  rw [zeditLines_eq]
  unfold zssMaxFile at hmax
  exact lt_of_le_of_lt hle (by omega)

/-- The same buffer, seen from another line. -/
def ViewOf (z z' : ZEdit) : Prop :=
  z' = { z with viewFirst := z'.viewFirst, viewCount := z'.viewCount }

theorem ViewOf.ite {p : Prop} [Decidable p] {a b : ZEdit} (ha : ViewOf z a) (hb : ViewOf z b) :
    ViewOf z (if p then a else b) := by
  split_ifs
  · exact ha
  · exact hb

theorem ViewOf.withFirst {a : ZEdit} (h : ViewOf z a) (first : ℕ) :
    ViewOf z { a with viewFirst := first } := by
  rw [h]
  rfl

theorem ViewOf.withCount {a : ZEdit} (h : ViewOf z a) (count : ℕ) :
    ViewOf z { a with viewCount := count } := by
  rw [h]
  rfl

theorem zeditRevealCursor_view (g : Grid) (z : ZEdit) : ViewOf z (zeditRevealCursor g z) :=
  have hz : ViewOf z z := rfl
  (hz.withFirst _).ite ((hz.withFirst _).ite hz)

theorem zeditRender_view (g : Grid) (z : ZEdit) : ViewOf z (zeditRender g z) := by
  have hz : ViewOf z z := rfl
  have hstart := @ViewOf.ite z (z.viewFirst = 0) _ _ _ (hz.withFirst 1) hz
  have hlines := fun p [Decidable p] first => @ViewOf.ite z p _ _ _ (hstart.withFirst first) hstart
  refine hz.ite ?_
  refine ViewOf.ite (ViewOf.withCount ?_ _) ?_
  all_goals
    exact ViewOf.ite ((hlines _ _).withCount _) (hlines _ _)

/-- No move leaves the lines, and the subtraction of `]` does not wrap. -/
theorem zeditMove_pos (g : Grid) (h : z.Sound) (hr : z.InRange) (hlines : zeditLines z ≠ 0)
    (key : UInt8) : 1 ≤ zeditMove g z (zeditLines z) key := by
  obtain ⟨hpos, hle⟩ := hr
  have hlt := zeditLines_lt h
  have hcursor : z.cursorLine ≤ zeditLines z := by omega
  have hremaining : (zeditLines z + 2 ^ 32 - z.cursorLine) % 2 ^ 32 = zeditLines z - z.cursorLine := by
    omega
  unfold zeditMove
  dsimp only
  rw [hremaining]
  split_ifs <;> omega

theorem zeditClamp_inRange {cursor lines : ℕ} (h : 1 ≤ cursor ∨ lines = 0) :
    1 ≤ zeditClamp cursor lines ∧ zeditClamp cursor lines ≤ max 1 lines := by
  unfold zeditClamp
  split_ifs <;> omega

theorem zeditNavigate_quiet (g : Grid) (h : z.Sound) (key : UInt8) :
    Quiet z (zeditNavigate g z key).2 := by
  unfold zeditNavigate
  dsimp only
  rw [zeditRevealCursor_view g
    { z with cursorLine := zeditClamp (zeditMove g z (zeditLines z) key) (zeditLines z) }]
  refine ⟨rfl, rfl, rfl, fun hr => ?_⟩
  rw [ZEdit.InRange, zeditLines_congr (z := z) rfl rfl]
  refine zeditClamp_inRange ?_
  by_cases hlines : zeditLines z = 0
  · exact .inr hlines
  · exact .inl (zeditMove_pos g h hr hlines key)

theorem zeditView_quiet (z : ZEdit) {first : ℕ} (hfirst : 1 ≤ first) (count : ℕ) :
    Quiet z (zeditView z first count).2 := by
  refine ⟨rfl, rfl, rfl, fun hr => ?_⟩
  have hlines : zeditLines (zeditView z first count).2 = zeditLines z := zeditLines_congr rfl rfl
  rw [ZEdit.InRange, hlines]
  unfold zeditView
  dsimp only
  by_cases hle : first ≤ zeditLines z
  · rw [if_pos hle]
    omega
  · rw [if_neg hle]
    exact hr

theorem zeditP_quiet (z : ZEdit) (args : List UInt8) : Quiet z (zeditP z args).2 := by
  unfold zeditP
  split_ifs with hargs
  · exact zeditView_quiet z le_rfl 20
  · rcases hn : zeditNumber (skipSpaces args) with _ | ⟨first, p⟩
    · exact .refl z
    · obtain ⟨digits, -, hd⟩ := zeditNumber_some hn
      dsimp only
      split_ifs with hp hend
      · rcases zeditNumber (skipSpaces p) with _ | ⟨count, p'⟩
        · exact .refl z
        · dsimp only
          split_ifs
          · exact .refl z
          · exact zeditView_quiet z hd.pos count
      · exact .refl z
      · exact zeditView_quiet z hd.pos 20

theorem eq_cons {line : List UInt8} {a : UInt8} (ha : a ≠ 0) (h : line.getD 0 0 = a) :
    line = a :: line.drop 1 := by
  cases line with
  | nil => exact absurd h.symm ha
  | cons c rest => rw [← h]; rfl

theorem eq_cons_cons {line : List UInt8} {a b : UInt8} (ha : a ≠ 0) (hb : b ≠ 0)
    (h0 : line.getD 0 0 = a) (h1 : line.getD 1 0 = b) : line = a :: b :: line.drop 2 := by
  rw [eq_cons ha h0] at h1 ⊢
  exact congrArg (a :: ·) (eq_cons hb h1)

theorem zeditNumbered_quiet {command : UInt8} {args : List UInt8}
    (hcommand : command = 105 ∨ command = 99 ∨ command = 100)
    (hq : ∀ edit, ¬Asks z.cursorLine (command :: 32 :: args) edit) :
    (zeditNumbered z command args).2 = z := by
  unfold zeditNumbered
  rcases hn : zeditNumber args with _ | ⟨number, p⟩
  · rfl
  · obtain ⟨digits, rfl, hd⟩ := zeditNumber_some hn
    dsimp only
    split_ifs with h100 hspace h105
    · rw [zeditD]
      split_ifs with hp
      · rfl
      · rw [h100, not_not.1 hp, List.append_nil] at hq
        exact absurd (.delete hd) (hq _)
    · rfl
    · rw [h105, eq_cons (by decide) (not_not.1 hspace)] at hq
      exact absurd (.insert hd _) (hq _)
    · have h99 : command = 99 := (hcommand.resolve_left h105).resolve_right h100
      rw [h99, eq_cons (by decide) (not_not.1 hspace)] at hq
      exact absurd (.change hd _) (hq _)

/-- A line that asks for no edit is one of `p` and the moves, or is refused. -/
theorem zeditEditing_quiet (g : Grid) (h : z.Sound) (line : ShellLine)
    (hq : ∀ edit, ¬Asks z.cursorLine line.chars edit) : Quiet z (zeditEditing g z line.chars).2 := by
  have hprintable := line.printable
  generalize line.chars = chars at hq hprintable ⊢
  unfold zeditEditing
  split_ifs with hp hmove he hn hx ha hnumbered
  · exact zeditP_quiet z _
  · exact zeditNavigate_quiet g h _
  · rw [eq_cons_cons (by decide) (by decide) he.1 he.2] at hq
    exact absurd (.edit _) (hq _)
  · rw [eq_cons_cons (by decide) (by decide) hn.1 hn.2] at hq
    exact absurd (.insertHere _) (hq _)
  · rw [hx] at hq
    exact absurd .deleteHere (hq _)
  · obtain ⟨ha, hend | hspace⟩ := ha
    · -- the line ends there, for it has no NUL
      rw [eq_cons (by decide) ha] at hq hprintable hend
      rcases hrest : chars.drop 1 with _ | ⟨c, rest⟩
      · rw [hrest] at hq
        exact absurd .appendEmpty (hq _)
      · rw [hrest] at hprintable hend
        have hc := (hprintable c (by simp)).1
        rw [show c = 0 from hend] at hc
        exact absurd hc (by decide)
    · rw [eq_cons_cons (by decide) (by decide) ha hspace] at hq
      exact absurd (.append _) (hq _)
  · have hne : chars.getD 0 0 ≠ 0 := by
      rcases hnumbered.1 with h0 | h0 | h0 <;> rw [h0] <;> decide
    rw [eq_cons_cons hne (by decide) rfl hnumbered.2] at hq
    rw [zeditNumbered_quiet hnumbered.1 hq]
    exact .refl z
  · exact .refl z

end ZealBringup.Editor
