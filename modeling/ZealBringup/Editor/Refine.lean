import ZealBringup.Editor.Splice
import ZealBringup.Editor.Command

/-!
# The text as a list of lines

Each edit of the buffer as one edit of the list of its lines.

* `LineEdit` — insert, replace, delete or append one line of a list.
* `Asks` — the edit that a typed line asks for.
* `Did` — a command did its edit, or was refused and did nothing.
* `insertAt_some`, `replace_some`, `zeditDeleteLine_some` — the edits of the text are the edits of
  the list.
-/

namespace ZealBringup.Editor

open Store Lines

/-! ## Lists of lines -/

/-- An edit of a list of lines, which are counted from 1. -/
inductive LineEdit where
  | insert (number : ℕ) (line : List UInt8)
  | replace (number : ℕ) (line : List UInt8)
  | delete (number : ℕ)
  | append (line : List UInt8)

/-- The edit names a place in the list. -/
def LineEdit.Valid (ls : List (List UInt8)) : LineEdit → Prop
  | insert number _ => 1 ≤ number ∧ number ≤ ls.length + 1
  | replace number _ => 1 ≤ number ∧ number ≤ ls.length
  | delete number => 1 ≤ number ∧ number ≤ ls.length
  | append _ => True

/-- The list after the edit. -/
def LineEdit.apply (ls : List (List UInt8)) : LineEdit → List (List UInt8)
  | insert number line => ls.insertIdx (number - 1) line
  | replace number line => ls.set (number - 1) line
  | delete number => ls.eraseIdx (number - 1)
  | append line => ls ++ [line]

/-- The new line. -/
def LineEdit.line : LineEdit → List UInt8
  | insert _ line => line
  | replace _ line => line
  | delete _ => []
  | append line => line

/-- The lines of the buffer. -/
def ZEdit.lines (z : ZEdit) : List (List UInt8) := splitLines 10 z.content

/-- A buffer as the editor keeps it: at most 4 MiB, with one NUL, behind the text. -/
structure ZEdit.Sound (z : ZEdit) : Prop where
  length_le : z.length ≤ zssMaxFile
  terminated : z.text z.length = 0
  no_nul : 0 ∉ z.content

/-- The text of a command: no newline, no NUL, and no longer than the prompt allows. -/
structure Body (body : List UInt8) : Prop where
  no_newline : 10 ∉ body
  no_nul : 0 ∉ body

/-! ## Decimal arguments -/

/-- The value of some digits and one more. -/
def appendDigit (value : ℕ) (c : UInt8) : ℕ := value * 10 + (c.toNat - 48)

/-- Digits for the line number `n`. -/
structure Decimal (digits : List UInt8) (n : ℕ) : Prop where
  nonempty : digits ≠ []
  digit : ∀ c ∈ digits, 48 ≤ c ∧ c ≤ 57
  value : digits.foldl appendDigit 0 = n
  pos : 0 < n
  lt : n < 2 ^ 32

variable {n : ℕ} {p : List UInt8}

theorem zeditDigits_some {value : ℕ} {input : List UInt8}
    (h : zeditDigits value input = some (n, p)) (hv : value < 2 ^ 32) :
    ∃ digits, input = digits ++ p ∧ (∀ c ∈ digits, 48 ≤ c ∧ c ≤ 57) ∧
      digits.foldl appendDigit value = n ∧ n < 2 ^ 32 := by
  induction input generalizing value with
  | nil =>
    obtain ⟨rfl, rfl⟩ := Prod.mk.inj (Option.some.inj h)
    exact ⟨[], rfl, by simp, rfl, hv⟩
  | cons c input ih =>
    rw [zeditDigits] at h
    dsimp only at h
    split_ifs at h with hc hover
    · have hdigit := UInt8.le_iff_toNat_le.1 hc.2
      have h57 : (57 : UInt8).toNat = 57 := rfl
      obtain ⟨digits, rfl, hdigits, hval, hlt⟩ := ih h (by omega)
      exact ⟨c :: digits, rfl, List.forall_mem_cons.2 ⟨hc, hdigits⟩, hval, hlt⟩
    · obtain ⟨rfl, rfl⟩ := Prod.mk.inj (Option.some.inj h)
      exact ⟨[], rfl, by simp, rfl, hv⟩

theorem zeditNumber_some {input : List UInt8} (h : zeditNumber input = some (n, p)) :
    ∃ digits, input = digits ++ p ∧ Decimal digits n := by
  unfold zeditNumber at h
  split_ifs at h with hfirst
  rcases hd : zeditDigits 0 input with _ | ⟨value, rest⟩
  · rw [hd] at h
    cases h
  · rw [hd] at h
    dsimp only at h
    split_ifs at h with hzero
    obtain ⟨rfl, rfl⟩ := Prod.mk.inj (Option.some.inj h)
    obtain ⟨digits, rfl, hdigits, hval, hlt⟩ := zeditDigits_some hd (by norm_num)
    refine ⟨digits, rfl, ?_, hdigits, hval, Nat.pos_of_ne_zero hzero, hlt⟩
    rintro rfl
    exact hzero hval.symm

theorem foldl_digits_ge (digits : List UInt8) (value : ℕ) :
    value ≤ digits.foldl appendDigit value := by
  induction digits generalizing value with
  | nil => exact le_rfl
  | cons c digits ih => exact le_trans (by unfold appendDigit; omega) (ih (appendDigit value c))

theorem zeditDigits_decimal {digits : List UInt8} {value : ℕ}
    (hdigits : ∀ c ∈ digits, 48 ≤ c ∧ c ≤ 57) (hp : ¬(48 ≤ p.getD 0 0 ∧ p.getD 0 0 ≤ 57))
    (hlt : digits.foldl appendDigit value < 2 ^ 32) :
    zeditDigits value (digits ++ p) =
      some (digits.foldl appendDigit value, p) := by
  induction digits generalizing value with
  | nil =>
    cases p with
    | nil => rfl
    | cons c p => exact if_neg hp
  | cons c digits ih =>
    obtain ⟨hc, hdigits⟩ := List.forall_mem_cons.1 hdigits
    have hge := foldl_digits_ge digits (appendDigit value c)
    rw [List.foldl_cons] at hlt ⊢
    unfold appendDigit at hge hlt
    rw [List.cons_append, zeditDigits, if_pos hc, if_neg (by omega)]
    exact ih hdigits hlt

/-- A number is read from its digits. -/
theorem zeditNumber_decimal {digits : List UInt8} (h : Decimal digits n)
    (hp : ¬(48 ≤ p.getD 0 0 ∧ p.getD 0 0 ≤ 57)) : zeditNumber (digits ++ p) = some (n, p) := by
  obtain ⟨c, rest, hcons⟩ := List.exists_cons_of_ne_nil h.nonempty
  have hfirst : 48 ≤ (digits ++ p).getD 0 0 ∧ (digits ++ p).getD 0 0 ≤ 57 := by
    rw [hcons]
    exact h.digit c (hcons ▸ List.mem_cons_self ..)
  rw [zeditNumber, if_pos hfirst, zeditDigits_decimal h.digit hp (by rw [h.value]; exact h.lt),
    h.value]
  exact if_neg h.pos.ne'

/-! ## What a typed line asks for -/

/-- The edit that a line asks for, where `cursor` is the selected line. -/
inductive Asks (cursor : ℕ) : List UInt8 → LineEdit → Prop where
  | append (body : List UInt8) : Asks cursor (97 :: 32 :: body) (.append body)
  | appendEmpty : Asks cursor [97] (.append [])
  | edit (body : List UInt8) : Asks cursor (101 :: 32 :: body) (.replace cursor body)
  | insertHere (body : List UInt8) : Asks cursor (110 :: 32 :: body) (.insert cursor body)
  | deleteHere : Asks cursor [120] (.delete cursor)
  | insert {digits : List UInt8} {number : ℕ} (h : Decimal digits number) (body : List UInt8) :
      Asks cursor (105 :: 32 :: (digits ++ 32 :: body)) (.insert number body)
  | change {digits : List UInt8} {number : ℕ} (h : Decimal digits number) (body : List UInt8) :
      Asks cursor (99 :: 32 :: (digits ++ 32 :: body)) (.replace number body)
  | delete {digits : List UInt8} {number : ℕ} (h : Decimal digits number) :
      Asks cursor (100 :: 32 :: digits) (.delete number)

/-- A command with its report: refused with nothing changed, or the edit done on the list of lines
and the cursor left at `cursor`. -/
inductive Did (z : ZEdit) (edit : LineEdit) (cursor : ℕ) : Report × ZEdit → Prop where
  | refused {r : Report} (herror : r.isError = true)
      (hwhy : ¬edit.Valid z.lines ∨ r = .exceeds ∧ zssMaxFile < z.length + edit.line.length + 2) :
      Did z edit cursor (r, z)
  | done {r : Report} {z' : ZEdit} (herror : r.isError = false) (hvalid : edit.Valid z.lines)
      (hlines : z'.lines = edit.apply z.lines) (hsound : z'.Sound) (hdirty : z'.dirty = true)
      (hcursor : z'.cursorLine = cursor) (hactive : z'.active = z.active) :
      Did z edit cursor (r, z')

/-! ## One command, one edit -/

namespace ZEdit.Retexted

variable {z z' : ZEdit}

theorem cursorLine (h : z.Retexted z') : z'.cursorLine = z.cursorLine := by
  rw [h.fields]

theorem active (h : z.Retexted z') : z'.active = z.active := by
  rw [h.fields]

theorem dirty (h : z.Retexted z') : z'.dirty = true := by
  rw [h.fields]

end ZEdit.Retexted

theorem zeditPrefix_false (z : ZEdit) : zeditPrefix z false = [] := if_neg (by simp)

theorem zeditPrefix_true (z : ZEdit) :
    zeditPrefix z true = [] ∧ Closed 10 z.content ∨
      zeditPrefix z true = [10] ∧ ¬Closed 10 z.content := by
  have hclosed : Closed 10 z.content ↔ z.length = 0 ∨ z.text (z.length - 1) = 10 := closed_window
  by_cases h : z.length = 0 ∨ z.text (z.length - 1) = 10
  · refine .inl ⟨if_neg fun hc => ?_, hclosed.2 h⟩
    exact h.elim hc.2.1 hc.2.2
  · exact .inr ⟨if_pos ⟨rfl, not_or.1 h⟩, mt hclosed.1 h⟩

theorem zeditPrefix_length_le (z : ZEdit) (appendEof : Bool) : (zeditPrefix z appendEof).length ≤ 1 := by
  rw [zeditPrefix]
  split_ifs <;> simp

theorem nul_notMem_zeditPrefix (z : ZEdit) (appendEof : Bool) : 0 ∉ zeditPrefix z appendEof := by
  rw [zeditPrefix]
  split_ifs <;> simp

variable {z z' : ZEdit} {start stop : ℕ} {body : List UInt8}

/-- A splice keeps the buffer sound. -/
theorem ZEdit.Sound.splice (h : z.Sound) {appendEof : Bool} (hbody : Body body)
    (hstart : start ≤ stop) (hstop : stop ≤ z.length)
    (hs : zeditSplice z start stop body appendEof = some z') : z'.Sound ∧ z.Retexted z' := by
  obtain ⟨hcontent, hlen, htext⟩ := zeditSplice_content hstart hstop hs
  refine ⟨⟨hlen, htext.terminated.trans h.terminated, fun hmem => ?_⟩, htext⟩
  rw [hcontent] at hmem
  rcases List.mem_append.1 hmem with hmem | hmem
  · rcases List.mem_append.1 hmem with hmem | hmem
    · exact h.no_nul (List.mem_of_mem_take hmem)
    · rcases List.mem_append.1 hmem with hmem | hmem
      · rcases List.mem_append.1 hmem with hmem | hmem
        · exact nul_notMem_zeditPrefix _ _ hmem
        · exact hbody.no_nul hmem
      · simp at hmem
  · exact h.no_nul (List.mem_of_mem_drop hmem)

theorem splice_refused {appendEof : Bool} (hstop : stop ≤ z.length)
    (hs : zeditSplice z start stop body appendEof = none) :
    zssMaxFile < z.length + body.length + 2 := by
  have hfull := (zeditSplice_none hstop).1 hs
  have hprefix := zeditPrefix_length_le z appendEof
  omega

/-- The last place: behind all lines. -/
theorem lines_append (hbody : Body body)
    (hs : zeditSplice z z.length z.length body true = some z') : z'.lines = z.lines ++ [body] := by
  have hcontent := (zeditSplice_content le_rfl le_rfl hs).1
  rw [List.take_of_length_le (by rw [ZEdit.content, length_window]),
    List.drop_of_length_le (by rw [ZEdit.content, length_window]), List.append_nil] at hcontent
  rw [ZEdit.lines, hcontent]
  exact splitLines_append_line hbody.no_newline (zeditPrefix_true z)

variable {number : ℕ}

/-- **Insertion before a line**, or behind the last one. -/
theorem insertAt_some (h : z.Sound) (hbody : Body body)
    (hat : zeditInsertAt z number = some start) :
    start ≤ z.length ∧ (LineEdit.insert number body).Valid z.lines ∧
      ∀ z', zeditSplice z start start body (decide (number = zeditLines z + 1)) = some z' →
        z'.lines = (LineEdit.insert number body).apply z.lines ∧ z'.Sound ∧ z.Retexted z' := by
  unfold zeditInsertAt at hat
  have hcount : zeditLines z = z.lines.length := zeditLines_eq z
  split_ifs at hat with hend
  · obtain rfl := Option.some.inj hat
    rw [decide_eq_true hend]
    refine ⟨le_rfl, ⟨by omega, by omega⟩, fun z' hs => ?_⟩
    refine ⟨?_, h.splice hbody le_rfl le_rfl hs⟩
    rw [lines_append hbody hs, LineEdit.apply, hend, hcount, Nat.add_sub_cancel,
      List.insertIdx_length_self]
  · obtain ⟨⟨s, e⟩, hb, rfl⟩ := Option.map_eq_some_iff.1 hat
    obtain ⟨hse, hez, old, stop, hline⟩ := zeditBounds_some hb
    have hvalid : number ≠ 0 ∧ number ≤ z.lines.length := by
      have hnone := mt zeditBounds_eq_none.2 (by rw [hb]; simp)
      exact ⟨fun h0 => hnone (.inl h0), not_lt.1 fun hlt => hnone (.inr hlt)⟩
    rw [decide_eq_false hend]
    refine ⟨by dsimp only; omega, ⟨by omega, by omega⟩, fun z' hs => ?_⟩
    dsimp only at hs
    refine ⟨?_, h.splice hbody le_rfl (by omega) hs⟩
    have hcontent := (zeditSplice_content le_rfl (by omega) hs).1
    have hdrop : z.content.drop s = old ++ stop ++ z.content.drop e := by
      have htext := hline.text_eq
      rw [List.append_assoc] at htext
      exact (List.append_right_inj (z.content.take s)).1 (by
        rw [List.take_append_drop]; exact htext)
    rw [ZEdit.lines, hcontent, zeditPrefix_false, List.nil_append, hdrop]
    exact hline.insert hbody.no_newline

theorem insertAt_none (body : List UInt8) (hat : zeditInsertAt z number = none) :
    ¬(LineEdit.insert number body).Valid z.lines := by
  unfold zeditInsertAt at hat
  have hcount : zeditLines z = z.lines.length := zeditLines_eq z
  split_ifs at hat with hend
  rintro ⟨hpos, hle⟩
  rcases zeditBounds_eq_none.1 (Option.map_eq_none_iff.1 hat) with h0 | hlt
  · omega
  · have : z.lines.length < number := hlt
    omega

/-- **Replacement of a line.** -/
theorem replace_some (h : z.Sound) (hbody : Body body)
    (hb : zeditBounds z number = some (start, stop)) :
    start ≤ stop ∧ stop ≤ z.length ∧ (LineEdit.replace number body).Valid z.lines ∧
      ∀ z', zeditSplice z start stop body false = some z' →
        z'.lines = (LineEdit.replace number body).apply z.lines ∧ z'.Sound ∧ z.Retexted z' := by
  obtain ⟨hse, hez, old, stop', hline⟩ := zeditBounds_some hb
  have hnone := mt zeditBounds_eq_none.2 (by rw [hb]; simp)
  refine ⟨hse.le, hez, ⟨Nat.pos_of_ne_zero fun h0 => hnone (.inl h0),
    not_lt.1 fun hlt => hnone (.inr hlt)⟩, fun z' hs => ⟨?_, h.splice hbody hse.le hez hs⟩⟩
  have hcontent := (zeditSplice_content hse.le hez hs).1
  rw [ZEdit.lines, hcontent, zeditPrefix_false, List.nil_append]
  exact hline.replace hbody.no_newline

/-- **Deletion of a line.** -/
theorem zeditDeleteLine_some (h : z.Sound) (hd : zeditDeleteLine z number = some z') :
    (LineEdit.delete number).Valid z.lines ∧ z'.lines = (LineEdit.delete number).apply z.lines ∧
      z'.Sound ∧ z.Retexted z' := by
  rcases hb : zeditBounds z number with _ | ⟨start, stop⟩
  · rw [zeditDeleteLine, hb] at hd
    cases hd
  · obtain ⟨hse, hez, old, stop', hline⟩ := zeditBounds_some hb
    have hnone := mt zeditBounds_eq_none.2 (by rw [hb]; simp)
    obtain ⟨z'', hd', hcontent, hlen, htext⟩ := zeditDeleteLine_content hse.le hez hb
    obtain rfl := Option.some.inj (hd.symm.trans hd')
    refine ⟨⟨Nat.pos_of_ne_zero fun h0 => hnone (.inl h0), not_lt.1 fun hlt => hnone (.inr hlt)⟩,
      ?_, ⟨hlen.trans h.length_le, htext.terminated.trans h.terminated, ?_⟩, htext⟩
    · rw [ZEdit.lines, hcontent]
      exact hline.erase
    · rw [hcontent]
      exact fun hmem => (List.mem_append.1 hmem).elim (fun hm => h.no_nul (List.mem_of_mem_take hm))
        fun hm => h.no_nul (List.mem_of_mem_drop hm)

theorem zeditDeleteLine_none (hd : zeditDeleteLine z number = none) :
    ¬(LineEdit.delete number).Valid z.lines := by
  rcases hb : zeditBounds z number with _ | ⟨start, stop⟩
  · rintro ⟨hpos, hle⟩
    rcases zeditBounds_eq_none.1 hb with h0 | hlt
    · omega
    · exact absurd hle (not_le.2 hlt)
  · rw [zeditDeleteLine, hb] at hd
    cases hd

end ZealBringup.Editor
