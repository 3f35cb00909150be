import ZealBringup.Editor.Session

/-!
# The selected line

Where the cursor of the editor is over a whole session.

* `zeditHandle_inRange` — every line keeps the cursor in range, but for an `i` into an empty buffer.
* `zeditHandle_keeps` — `i` and `d` of another line leave the cursor on its line of text.
* `cursor_in_range_iff` — so a session is right exactly if it never types such an `i`.
-/

set_option maxRecDepth 10000

namespace ZealBringup.Editor

open Store Lines

variable {z : ZEdit}

/-- `i 1` and some text, typed into an empty buffer. -/
def InsertsIntoEmpty (z : ZEdit) (line : List UInt8) : Prop :=
  z.length = 0 ∧ ∃ digits body, Decimal digits 1 ∧ line = 105 :: 32 :: (digits ++ 32 :: body)

/-- What the commands rely on: the cursor is in range, it names a line unless the buffer is empty,
and `]` can subtract it from the count. -/
structure ZEdit.CursorOk (z : ZEdit) : Prop where
  inRange : z.InRange
  selected : z.length ≠ 0 → (zeditBounds z z.cursorLine).isSome = true
  difference : zeditLines z ≠ 0 → z.cursorLine ≤ zeditLines z

/-- `i` before any line, and `d` of another line than the selected one, leave the cursor on the same
line of text. -/
structure KeepsLine (z : ZEdit) (line : List UInt8) (r : Report) (z' : ZEdit) : Prop where
  insert : ∀ digits number body, Decimal digits number →
    line = 105 :: 32 :: (digits ++ 32 :: body) → r.isError = false →
    z'.lines[z'.cursorLine - 1]? = z.lines[z.cursorLine - 1]?
  delete : ∀ digits number, Decimal digits number → line = 100 :: 32 :: digits →
    number ≠ z.cursorLine → r.isError = false →
    z'.lines[z'.cursorLine - 1]? = z.lines[z.cursorLine - 1]?

theorem zeditLines_eq_zero : zeditLines z = 0 ↔ z.length = 0 := by
  rw [zeditLines_eq, List.length_eq_zero_iff, splitLines_eq_nil, ← List.length_eq_zero_iff,
    ZEdit.content, length_window]

theorem ZEdit.InRange.ok (h : z.InRange) : z.CursorOk := by
  obtain ⟨hpos, hle⟩ := h
  have hdiff : zeditLines z ≠ 0 → z.cursorLine ≤ zeditLines z := by omega
  refine ⟨⟨hpos, hle⟩, fun hne => ?_, hdiff⟩
  have hcursor := hdiff (mt zeditLines_eq_zero.1 hne)
  rw [Option.isSome_iff_ne_none]
  intro hnone
  rcases zeditBounds_eq_none.1 hnone with h0 | hlt
  · omega
  · rw [zeditLines_eq] at hcursor
    omega

/-! ## One line -/

/-- How many lines an edit leaves of so many. -/
def LineEdit.count (lines : ℕ) : LineEdit → ℕ
  | insert _ _ => lines + 1
  | replace _ _ => lines
  | delete _ => lines - 1
  | append _ => lines + 1

theorem LineEdit.length_apply {ls : List (List UInt8)} {edit : LineEdit} (h : edit.Valid ls) :
    (edit.apply ls).length = edit.count ls.length := by
  cases edit with
  | insert number line =>
    obtain ⟨hpos, hle⟩ := h
    rw [apply, List.length_insertIdx_of_le_length (by omega), count]
  | replace number line => rw [apply, List.length_set, count]
  | delete number =>
    obtain ⟨hpos, hle⟩ := h
    rw [apply, List.length_eraseIdx_of_lt (by omega), count]
  | append line => rw [apply, List.length_append, List.length_singleton, count]

/-- An edit keeps the cursor in range, unless it is a first line that `i` inserts. -/
theorem cursorAfter_inRange {cursor : ℕ} {ls : List (List UInt8)} {line : List UInt8}
    {edit : LineEdit} (ha : Asks cursor line edit) (hvalid : edit.Valid ls)
    (hpos : 1 ≤ cursor) (hle : cursor ≤ max 1 ls.length) (hfirst : ls.length = 0 → line.getD 0 0 ≠ 105) :
    1 ≤ cursorAfter cursor ls.length (line.getD 0 0) edit ∧
      cursorAfter cursor ls.length (line.getD 0 0) edit ≤ max 1 (edit.apply ls).length := by
  rw [edit.length_apply hvalid]
  cases ha with
  | append body => exact ⟨hpos, by rw [cursorAfter, LineEdit.count]; omega⟩
  | appendEmpty => exact ⟨hpos, by rw [cursorAfter, LineEdit.count]; omega⟩
  | edit body => exact ⟨hpos, hle⟩
  | change hd body => exact ⟨hpos, hle⟩
  | insertHere body =>
    rw [cursorAfter, if_neg (by simp), LineEdit.count]
    omega
  | insert hd body =>
    have hne : ls.length ≠ 0 := fun h0 => hfirst h0 rfl
    rw [cursorAfter, if_pos (List.getD_cons_zero ..), shifted, LineEdit.count]
    split_ifs <;> omega
  | deleteHere =>
    rw [cursorAfter, unshifted, if_neg (lt_irrefl _)]
    exact zeditClamp_inRange (.inl hpos)
  | @delete digits number hd =>
    obtain ⟨hone, -⟩ := hvalid
    rw [cursorAfter, unshifted]
    refine zeditClamp_inRange (.inl ?_)
    split_ifs <;> omega

/-- **One line keeps the cursor in range**, but for an `i` into an empty buffer. -/
theorem zeditHandle_inRange (g : Grid) (m : Machine) (h : z.Sound) (hr : z.InRange)
    (line : ShellLine) (hgood : ¬InsertsIntoEmpty z line.chars) :
    (zeditHandle g z m line.chars).2.1.InRange := by
  obtain ⟨hsound, hline, hcursor⟩ := zeditHandle_step g m h line
  generalize hs : zeditHandle g z m line.chars = s at hsound hline hcursor
  by_cases ha : ∃ edit, Asks z.cursorLine line.chars edit
  · obtain ⟨edit, ha⟩ := ha
    rcases hline.asked edit ha with ⟨hfine, hvalid, hlines, -⟩ | ⟨herror, -⟩
    · obtain ⟨hpos, hle⟩ := hr
      rw [zeditLines_eq] at hle
      rw [ZEdit.InRange, hcursor.asked edit ha hfine, zeditLines_eq, ← ZEdit.lines, hlines]
      refine cursorAfter_inRange ha hvalid hpos hle fun h0 h105 => hgood ⟨?_, ?_⟩
      · rw [← zeditLines_eq_zero, zeditLines_eq]
        exact h0
      · generalize line.chars = chars at ha h105
        cases ha with
        | @insert digits number hd body =>
          obtain ⟨hone, hle⟩ := hvalid
          have hnumber : number = 1 := by omega
          exact ⟨digits, body, hnumber ▸ hd, rfl⟩
        | _ => exact absurd h105 (by simp)
    · obtain ⟨htext, hlength, -⟩ := hline.error herror
      rwa [ZEdit.InRange, hcursor.refused edit ha herror, zeditLines_congr htext hlength]
  · exact hcursor.other (fun edit hedit => ha ⟨edit, hedit⟩) hr

/-- And that `i` leaves it behind the end. -/
theorem zeditHandle_first (g : Grid) (m : Machine) (h : z.Sound) (hr : z.InRange)
    (line : ShellLine) (hbad : InsertsIntoEmpty z line.chars) :
    ¬(zeditHandle g z m line.chars).2.1.InRange := by
  obtain ⟨hsound, hline, hcursor⟩ := zeditHandle_step g m h line
  obtain ⟨hempty, digits, body, hd, hchars⟩ := hbad
  have hshort := line.short
  generalize hs : zeditHandle g z m line.chars = s at hsound hline hcursor
  have hzero := zeditLines_eq_zero.2 hempty
  have hone : z.cursorLine = 1 := by
    obtain ⟨hpos, hle⟩ := hr
    omega
  have ha : Asks z.cursorLine line.chars (.insert 1 body) := hchars ▸ .insert hd body
  rw [zeditLines_eq] at hzero
  have hvalid : (LineEdit.insert 1 body).Valid z.lines := ⟨le_rfl, Nat.le_add_left 1 _⟩
  rcases hline.asked _ ha with ⟨hfine, -, hlines, -⟩ | ⟨-, hinvalid | ⟨-, hfull⟩⟩
  · rintro ⟨-, hle⟩
    rw [hcursor.asked _ ha hfine, zeditLines_eq, ← ZEdit.lines, hlines,
      LineEdit.length_apply hvalid, hchars, hone] at hle
    simp only [LineEdit.count, cursorAfter, shifted, List.getD_cons_zero, le_refl, reduceIte] at hle
    have hlength : z.lines.length = 0 := hzero
    omega
  · exact absurd hvalid hinvalid
  · rw [hchars] at hshort
    simp only [List.length_cons, List.length_append] at hshort
    rw [hempty, LineEdit.line, zssMaxFile] at hfull
    omega

/-- **The cursor follows its line of text.** -/
theorem zeditHandle_keeps (g : Grid) (m : Machine) (h : z.Sound) (hr : z.InRange)
    (line : ShellLine) (hgood : ¬InsertsIntoEmpty z line.chars) :
    KeepsLine z line.chars (zeditHandle g z m line.chars).1
      (zeditHandle g z m line.chars).2.1 := by
  obtain ⟨hsound, hline, hcursor⟩ := zeditHandle_step g m h line
  generalize hs : zeditHandle g z m line.chars = s at hsound hline hcursor
  obtain ⟨hpos, hle⟩ := hr
  rw [zeditLines_eq] at hle
  change z.cursorLine ≤ max 1 z.lines.length at hle
  constructor
  · intro digits number body hd hchars hfine
    have ha : Asks z.cursorLine line.chars (.insert number body) := hchars ▸ .insert hd body
    rcases hline.asked _ ha with ⟨-, ⟨hone, hend⟩, hlines, -⟩ | ⟨herror, -⟩
    · have hne : z.lines.length ≠ 0 := by
        intro h0
        have hnumber : number = 1 := by omega
        refine hgood ⟨?_, digits, body, hnumber ▸ hd, hchars⟩
        rw [← zeditLines_eq_zero, zeditLines_eq]
        exact h0
      rw [hcursor.asked _ ha hfine, hlines, LineEdit.apply, cursorAfter, hchars,
        if_pos (List.getD_cons_zero ..), shifted]
      by_cases hbefore : number ≤ z.cursorLine
      · rw [if_pos hbefore, Nat.add_sub_cancel, List.getElem?_insertIdx_of_gt (by omega)]
      · rw [if_neg hbefore, List.getElem?_insertIdx_of_lt (by omega)]
    · rw [hfine] at herror
      cases herror
  · intro digits number hd hchars hother hfine
    have ha : Asks z.cursorLine line.chars (.delete number) := hchars ▸ .delete hd
    rcases hline.asked _ ha with ⟨-, ⟨hone, hend⟩, hlines, -⟩ | ⟨herror, -⟩
    · rw [hcursor.asked _ ha hfine, hlines, LineEdit.apply, cursorAfter, unshifted, zeditClamp]
      by_cases hbefore : number < z.cursorLine
      · rw [if_pos hbefore, if_neg (by omega), if_neg (by omega),
          List.getElem?_eraseIdx_of_ge (by omega)]
        congr 1
        omega
      · rw [if_neg hbefore, if_neg (by omega), if_neg (by omega),
          List.getElem?_eraseIdx_of_lt (by omega)]
    · rw [hfine] at herror
      cases herror

/-! ## A whole session -/

/-- What `zedit_start` opens: a sound buffer, with the cursor on line 1. -/
theorem zeditStart_some {g : Grid} {z₀ : ZEdit} {m m' : Machine} {name : List UInt8}
    {opening : Opening} (h : zeditStart g z₀ m name = (opening, some z, m')) :
    z.Sound ∧ z.InRange ∧ z.active = true := by
  have hopen : ∀ (text : ℕ → UInt8) (length : ℕ) (existed : Bool), length ≤ zssMaxFile →
      text length = 0 → 0 ∉ window text length →
      z = zeditRender g (z₀.opening name text length existed) →
      z.Sound ∧ z.InRange ∧ z.active = true := by
    rintro text length existed hle hnul hno rfl
    rw [zeditRender_view g (z₀.opening name text length existed)]
    exact ⟨⟨hle, hnul, hno⟩, ⟨le_rfl, le_max_left _ _⟩, rfl⟩
  unfold zeditStart at h
  split_ifs at h with hname
  · cases h
  rcases hf : zssFind m (some name) with ⟨found, m₁⟩
  rw [hf] at h
  dsimp only at h
  split_ifs at h with h2 h1 hfound
  · cases h
  · cases h
  · rcases hout : found.out with _ | entry
    · rw [hout] at h
      cases h
    · rw [hout] at h
      dsimp only at h
      split_ifs at h with hresult hno
      · cases h
      · cases h
      have hcap : ¬zssMaxFile + 1 ≤ entry.length := by
        intro hcap
        rw [zssRead, if_pos hcap] at hresult
        exact hresult (by decide)
      cases h
      exact hopen _ entry.length true (by omega) (Function.update_self ..) hno rfl
  · cases h
    exact hopen (Function.update z₀.text 0 0) 0 false (Nat.zero_le _) (Function.update_self ..)
      List.not_mem_nil rfl

theorem zeditRun_concat (g : Grid) (z : ZEdit) (m : Machine) (typed : List ShellLine)
    (line : ShellLine) :
    zeditRun g z m (typed ++ [line]) =
      if (zeditRun g z m typed).1.active = true then
        (zeditHandle g (zeditRun g z m typed).1 (zeditRun g z m typed).2 line.chars).2
      else zeditRun g z m typed := by
  induction typed generalizing z m with
  | nil => rfl
  | cons head typed ih =>
    rw [List.cons_append, zeditRun, zeditRun]
    by_cases hactive : z.active = true
    · rw [if_pos hactive, if_pos hactive]
      exact ih _ _
    · rw [if_neg hactive, if_neg hactive, if_neg hactive]

/-- The editor after the first `k` lines. -/
def zeditAfter (g : Grid) (z : ZEdit) (m : Machine) (typed : List ShellLine) (k : ℕ) :
    ZEdit × Machine :=
  zeditRun g z m (typed.take k)

theorem zeditAfter_succ (g : Grid) (z : ZEdit) (m : Machine) (typed : List ShellLine) {k : ℕ}
    (hk : k < typed.length) :
    zeditAfter g z m typed (k + 1) =
      if (zeditAfter g z m typed k).1.active = true then
        (zeditHandle g (zeditAfter g z m typed k).1 (zeditAfter g z m typed k).2
          typed[k].chars).2
      else zeditAfter g z m typed k := by
  rw [zeditAfter, List.take_succ_eq_append_getElem hk]
  exact zeditRun_concat g z m _ _

theorem zeditAfter_sound (g : Grid) (h : z.Sound) (m : Machine) (typed : List ShellLine) (k : ℕ) :
    (zeditAfter g z m typed k).1.Sound :=
  zeditRun_sound g m h (typed.take k)

/-- **The cursor is right exactly in the sessions that never type an `i` into an empty buffer.**
In every other session the cursor is in range in every state, and every `i` and every `d` of
another line leaves it on its line of text. -/
theorem cursor_in_range_iff {g : Grid} {z₀ : ZEdit} {m m' : Machine} {name : List UInt8}
    {opening : Opening} (hstart : zeditStart g z₀ m name = (opening, some z, m'))
    (typed : List ShellLine) :
    ((∀ k ≤ typed.length, (zeditAfter g z m' typed k).1.CursorOk) ∧
      ∀ k (hk : k < typed.length), (zeditAfter g z m' typed k).1.active = true →
        KeepsLine (zeditAfter g z m' typed k).1 typed[k].chars
          (zeditHandle g (zeditAfter g z m' typed k).1 (zeditAfter g z m' typed k).2
            typed[k].chars).1
          (zeditAfter g z m' typed (k + 1)).1) ↔
    ∀ k (hk : k < typed.length), (zeditAfter g z m' typed k).1.active = true →
      ¬InsertsIntoEmpty (zeditAfter g z m' typed k).1 typed[k].chars := by
  obtain ⟨hsound, hrange, -⟩ := zeditStart_some hstart
  have hkept := fun k => zeditAfter_sound g hsound m' typed k
  constructor
  · rintro ⟨hok, -⟩ k hk hactive hbad
    have hnext := (hok (k + 1) hk).inRange
    rw [zeditAfter_succ g z m' typed hk, if_pos hactive] at hnext
    exact zeditHandle_first g _ (hkept k) (hok k hk.le).inRange typed[k] hbad hnext
  · intro hgood
    have hin : ∀ k ≤ typed.length, (zeditAfter g z m' typed k).1.InRange := by
      intro k
      induction k with
      | zero => exact fun _ => hrange
      | succ k ih =>
        intro hk
        rw [zeditAfter_succ g z m' typed hk]
        split_ifs with hactive
        · exact zeditHandle_inRange g _ (hkept k) (ih (Nat.le_of_succ_le hk)) typed[k]
            (hgood k hk hactive)
        · exact ih (Nat.le_of_succ_le hk)
    refine ⟨fun k hk => (hin k hk).ok, fun k hk hactive => ?_⟩
    rw [zeditAfter_succ g z m' typed hk, if_pos hactive]
    exact zeditHandle_keeps g _ (hkept k) (hin k hk.le) typed[k] (hgood k hk hactive)

/-- `i 1 X`. -/
def insertFirst : ShellLine := ⟨[105, 32, 49, 32, 88], by decide, by decide⟩

/-- `zedit A` on a fresh image opens an empty buffer. -/
theorem zeditStart_freshDisk :
    ∃ z m', zeditStart ⟨25, 80⟩ twoLines (boot fullDevice (fun _ => .done) freshDisk) [65] =
        (.new 0 0, some z, m') ∧
      z = zeditRender ⟨25, 80⟩ (twoLines.opening [65] (Function.update twoLines.text 0 0) 0 false) := by
  have hfind := @zssFind_eq _ _ _ _ (@holds_freshDisk fullDevice (fun _ => .done) rfl (le_refl _))
    (some [65]) (by simpa using by decide)
  refine ⟨_, (boot fullDevice (fun _ => .done) freshDisk).select (bankA 0), ?_, rfl⟩
  rw [zeditStart, if_neg (by decide), hfind]
  rfl

/-- **The first line inserted by `i` leaves the cursor behind the end**: `x` then finds no line to
delete, though there is one. -/
theorem cursor_past_end :
    ∃ z m', zeditStart ⟨25, 80⟩ twoLines (boot fullDevice (fun _ => .done) freshDisk) [65] =
        (.new 0 0, some z, m') ∧
      zeditLines (zeditAfter ⟨25, 80⟩ z m' [insertFirst] 1).1 = 1 ∧
      (zeditAfter ⟨25, 80⟩ z m' [insertFirst] 1).1.cursorLine = 2 ∧
      ¬(zeditAfter ⟨25, 80⟩ z m' [insertFirst] 1).1.CursorOk ∧
      (zeditEditing ⟨25, 80⟩ (zeditAfter ⟨25, 80⟩ z m' [insertFirst] 1).1 [120]).1 =
        .cursorOutOfRange := by
  obtain ⟨z, m', hstart, hz⟩ := zeditStart_freshDisk
  have hlines : zeditLines (zeditAfter ⟨25, 80⟩ z m' [insertFirst] 1).1 = 1 := by
    rw [hz]
    rfl
  have hcursor : (zeditAfter ⟨25, 80⟩ z m' [insertFirst] 1).1.cursorLine = 2 := by
    rw [hz]
    rfl
  refine ⟨z, m', hstart, hlines, hcursor, fun hok => ?_, ?_⟩
  · have hle := hok.inRange.2
    rw [hlines, hcursor] at hle
    exact absurd hle (by decide)
  · rw [hz]
    rfl

/-- `a X` and then `i 1 X`. -/
def appendThenInsert : List ShellLine := [⟨[97, 32, 88], by decide, by decide⟩, insertFirst]

/-- On the same empty buffer, a first line by `a`: the cursor then goes along with it. -/
theorem cursor_in_range_append :
    ∃ z m', zeditStart ⟨25, 80⟩ twoLines (boot fullDevice (fun _ => .done) freshDisk) [65] =
        (.new 0 0, some z, m') ∧
      ∀ k ≤ 2, (zeditAfter ⟨25, 80⟩ z m' appendThenInsert k).1.CursorOk := by
  obtain ⟨z, m', hstart, hz⟩ := zeditStart_freshDisk
  refine ⟨z, m', hstart,
    ((cursor_in_range_iff hstart appendThenInsert).2 fun k hk _ hbad => ?_).1⟩
  obtain ⟨hempty, digits, body, -, hchars⟩ := hbad
  match k, hk with
  | 0, _ => cases hchars
  | 1, _ =>
    rw [hz] at hempty
    cases hempty

end ZealBringup.Editor
