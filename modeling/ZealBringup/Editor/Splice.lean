import ZealBringup.Lib.Lines
import ZealBringup.Editor.Buffer

/-!
# What the buffer functions do

* `zeditLines_eq` — the count is the length of the list of lines.
* `zeditBounds_spec` — the bounds are where the line is.
* `zeditSplice_content`, `zeditDeleteLine_content` — the moves in place, as one replacement.
-/

namespace ZealBringup.Editor

open Store Lines

/-! ## Windows -/

@[simp] theorem length_window (text : ℕ → UInt8) (n : ℕ) : (window text n).length = n := by
  simp [window]

theorem window_add (text : ℕ → UInt8) (a b : ℕ) :
    window text (a + b) = window text a ++ window (fun i => text (a + i)) b := by
  simp [window, List.range_add, Function.comp_def]

theorem window_succ (text : ℕ → UInt8) (n : ℕ) : window text (n + 1) = window text n ++ [text n] := by
  rw [window_add]
  rfl

variable {n : ℕ}

theorem window_congr {text text' : ℕ → UInt8} (h : ∀ i < n, text i = text' i) :
    window text n = window text' n :=
  List.map_congr_left fun i hi => h i (List.mem_range.1 hi)

theorem window_take (text : ℕ → UInt8) {a : ℕ} (h : a ≤ n) :
    (window text n).take a = window text a := by
  obtain ⟨b, rfl⟩ := Nat.exists_eq_add_of_le h
  rw [window_add, List.take_left' (length_window text a)]

theorem window_drop (text : ℕ → UInt8) {a : ℕ} (h : a ≤ n) :
    (window text n).drop a = window (fun i => text (a + i)) (n - a) := by
  obtain ⟨b, rfl⟩ := Nat.exists_eq_add_of_le h
  rw [window_add, List.drop_left' (length_window text a), Nat.add_sub_cancel_left]

theorem window_getElem (text : ℕ → UInt8) (bytes : List UInt8)
    (h : ∀ i (hi : i < bytes.length), text i = bytes[i]) : window text bytes.length = bytes :=
  List.ext_getElem (length_window ..) fun i _ hi => by simp [window, h i hi]

/-- A text that differs by a replacement, byte by byte. -/
theorem window_splice {text text' : ℕ → UInt8} {n start stop : ℕ} {bytes : List UInt8}
    (hstart : start ≤ stop) (hstop : stop ≤ n) (hlow : ∀ i < start, text' i = text i)
    (hmid : ∀ i (hi : i < bytes.length), text' (start + i) = bytes[i])
    (hhigh : ∀ i < n - stop, text' (start + bytes.length + i) = text (stop + i)) :
    window text' (start + bytes.length + (n - stop)) =
      (window text n).take start ++ bytes ++ (window text n).drop stop := by
  rw [window_add, window_add, window_take text (hstart.trans hstop), window_drop text hstop,
    window_congr hlow, window_getElem (fun i => text' (start + i)) bytes hmid, window_congr hhigh]

/-! ## Counting and finding lines -/

theorem zeditNewlines_eq (text : ℕ → UInt8) (n : ℕ) :
    zeditNewlines text n = (window text n).count 10 := by
  induction n with
  | zero => rfl
  | succ n ih =>
    rw [zeditNewlines, window_succ, List.count_append, ih]
    by_cases h : text n = 10 <;> simp [h]

theorem closed_window {text : ℕ → UInt8} :
    Closed 10 (window text n) ↔ n = 0 ∨ text (n - 1) = 10 := by
  cases n with
  | zero => simp [window]
  | succ n =>
    have hne : window text n ++ [text n] ≠ [] := by simp
    rw [window_succ]
    constructor
    · rintro (h | ⟨front, h⟩)
      · exact absurd h hne
      · exact .inr (List.singleton_inj.1 (List.append_inj_right' h rfl))
    · rintro (h | h)
      · cases h
      · exact .inr ⟨window text n, by rw [← h]; rfl⟩

/-- **The line count is the length of the list of lines.** -/
theorem zeditLines_eq (z : ZEdit) : zeditLines z = (splitLines 10 z.content).length := by
  have hclosed : Closed 10 z.content ↔ z.length = 0 ∨ z.text (z.length - 1) = 10 := closed_window
  rw [zeditLines, zeditNewlines_eq]
  split_ifs with h
  · exact (length_splitLines_open fun hc => (hclosed.1 hc).elim h.1 h.2).symm
  · refine (length_splitLines_closed (hclosed.2 ?_)).symm
    by_contra hc
    exact h (not_or.1 hc)

theorem zeditLineEnd_spec (text : ℕ → UInt8) (start left : ℕ) :
    start ≤ zeditLineEnd text start left ∧ zeditLineEnd text start left ≤ start + left ∧
      (∀ i, start ≤ i → i < zeditLineEnd text start left → text i ≠ 10) ∧
      (zeditLineEnd text start left < start + left → text (zeditLineEnd text start left) = 10) := by
  induction left generalizing start with
  | zero => exact ⟨le_rfl, le_rfl, fun i h h' => absurd h' (not_lt.2 h),
    fun h => absurd h (lt_irrefl _)⟩
  | succ left ih =>
    rw [zeditLineEnd]
    split_ifs with h
    · obtain ⟨hle, hup, hbody, hend⟩ := ih (start + 1)
      refine ⟨by omega, by omega, fun i hi hlt => ?_, fun hlt => hend (by omega)⟩
      rcases Nat.eq_or_lt_of_le hi with rfl | hi
      · exact h
      · exact hbody i hi hlt
    · exact ⟨le_rfl, by omega, fun i hi hlt => absurd hlt (not_lt.2 hi), fun _ => not_not.1 h⟩

variable {z : ZEdit} {start : ℕ}

/-- The line that begins at `start`, as the loop finds it. -/
theorem line_at {last : ℕ} (hstart : start < z.length)
    (hclosed : Closed 10 (z.content.take start))
    (hlast : last = if zeditLineEnd z.text start (z.length - start) < z.length then zeditLineEnd z.text start (z.length - start) + 1 else zeditLineEnd z.text start (z.length - start)) :
    
    start < last ∧ last ≤ z.length ∧ ∃ body stop,
      Line 10 z.content (splitLines 10 (z.content.take start)).length (z.content.take start)
        body stop (z.content.drop last) ∧
      z.content.take last = z.content.take start ++ (body ++ stop) ∧
      (stop = [10] ∨ last = z.length) := by
  obtain ⟨hle, hup, hbody, hend⟩ := zeditLineEnd_spec z.text start (z.length - start)
  generalize zeditLineEnd z.text start (z.length - start) = stop at *
  obtain ⟨n, rfl⟩ := Nat.exists_eq_add_of_le hle
  have hsep : (10 : UInt8) ∉ window (fun i => z.text (start + i)) n := by
    intro hmem
    obtain ⟨i, hi, hnl⟩ := List.mem_map.1 hmem
    exact hbody (start + i) (by omega) (by have := List.mem_range.1 hi; omega) hnl
  have htake : ∀ last ≤ z.length, z.content.take last = window z.text last := fun last h =>
    window_take z.text h
  by_cases hnl : start + n < z.length
  · rw [if_pos hnl] at hlast
    subst hlast
    have heq : z.content.take (start + n + 1) =
        z.content.take start ++ (window (fun i => z.text (start + i)) n ++ [10]) := by
      rw [htake _ (by omega), htake _ (by omega), window_succ, window_add, hend (by omega),
        List.append_assoc]
    refine ⟨by omega, by omega, _, _, ⟨?_, hclosed, rfl, hsep, .inl rfl⟩, heq, .inl rfl⟩
    rw [← heq, List.take_append_drop]
  · rw [if_neg hnl] at hlast
    have hn : start + n = z.length := by omega
    subst hlast
    have heq : z.content.take (start + n) =
        z.content.take start ++ (window (fun i => z.text (start + i)) n ++ []) := by
      rw [htake _ (by omega), htake _ (by omega), window_add, List.append_nil]
    refine ⟨by omega, by omega, _, _, ⟨?_, hclosed, rfl, hsep, .inr ⟨rfl, ?_, ?_⟩⟩, heq, .inr hn⟩
    · rw [← heq, List.take_append_drop]
    · exact List.drop_of_length_le (by rw [ZEdit.content, length_window]; omega)
    · exact List.ne_nil_of_length_pos (by rw [length_window]; omega)

/-- What the loop of `zedit_bounds` finds, from the beginning of line `current` on. -/
theorem zeditBoundsLoop_spec {z : ZEdit} {number rounds current start : ℕ}
    (hrounds : z.length ≤ start + rounds) (hstart : start ≤ z.length)
    (hclosed : start = z.length ∨ Closed 10 (z.content.take start))
    (hcount : (splitLines 10 (z.content.take start)).length + 1 = current)
    (hnumber : current ≤ number) :
    (zeditBoundsLoop z number rounds current start = none →
      (splitLines 10 z.content).length < number) ∧
    ∀ s e, zeditBoundsLoop z number rounds current start = some (s, e) →
      s < e ∧ e ≤ z.length ∧ ∃ body stop,
        Line 10 z.content (number - 1) (z.content.take s) body stop (z.content.drop e) := by
  have hfull : ∀ start current : ℕ, z.length ≤ start →
      (splitLines 10 (z.content.take start)).length + 1 = current → current ≤ number →
      (splitLines 10 z.content).length < number := by
    intro start current h hcount hnumber
    rw [List.take_of_length_le (by rwa [ZEdit.content, length_window])] at hcount
    omega
  induction rounds generalizing current start with
  | zero => exact ⟨fun _ => hfull start current (by omega) hcount hnumber, fun s e h => nomatch h⟩
  | succ rounds ih =>
    rw [zeditBoundsLoop]
    by_cases hlt : start < z.length
    · obtain ⟨hlo, hhi, body, stop, hline, htake, hstop⟩ :=
        line_at hlt (hclosed.resolve_left (by omega)) rfl
      rw [if_pos hlt]
      dsimp only
      generalize (if zeditLineEnd z.text start (z.length - start) < z.length then
        zeditLineEnd z.text start (z.length - start) + 1
        else zeditLineEnd z.text start (z.length - start)) = last at *
      by_cases hcur : current = number
      · rw [if_pos hcur]
        refine ⟨(nomatch ·), fun s e h => ?_⟩
        obtain ⟨rfl, rfl⟩ := Prod.mk.inj (Option.some.inj h)
        exact ⟨hlo, hhi, body, stop, by rwa [show number - 1 =
          (splitLines 10 (z.content.take start)).length by omega]⟩
      · rw [if_neg hcur]
        have hnext : (splitLines 10 (z.content.take last)).length + 1 = current + 1 := by
          rw [htake, hline.upTo.splitLines_eq, List.length_append]
          exact congrArg (· + 1) hcount
        refine ih (by omega) hhi ?_ hnext (by omega)
        rcases hstop with rfl | hend
        · rw [htake, ← List.append_assoc]
          exact .inr (closed_append_sep _)
        · exact .inl hend
    · rw [if_neg hlt]
      exact ⟨fun _ => hfull start current (by omega) hcount hnumber, fun s e h => nomatch h⟩

variable {number : ℕ}

/-- **The bounds are the extent of the line**, and there are none exactly for a number that names no
line. -/
theorem zeditBounds_some {s e : ℕ} (h : zeditBounds z number = some (s, e)) :
    s < e ∧ e ≤ z.length ∧ ∃ body stop,
      Line 10 z.content (number - 1) (z.content.take s) body stop (z.content.drop e) := by
  unfold zeditBounds at h
  split_ifs at h with hzero
  exact (@zeditBoundsLoop_spec z number z.length 1 0 (by omega) (Nat.zero_le _) (.inr closed_nil) rfl
    (by omega)).2 s e h

theorem zeditBounds_eq_none :
    zeditBounds z number = none ↔ number = 0 ∨ (splitLines 10 z.content).length < number := by
  constructor
  · intro h
    unfold zeditBounds at h
    split_ifs at h with hzero
    · exact .inl hzero
    · exact .inr ((@zeditBoundsLoop_spec z number z.length 1 0 (by omega) (Nat.zero_le _)
        (.inr closed_nil) rfl (by omega)).1 h)
  · intro h
    by_contra hsome
    obtain ⟨⟨s, e⟩, hse⟩ := Option.ne_none_iff_exists'.1 hsome
    obtain ⟨-, -, body, stop, hline⟩ := zeditBounds_some hse
    have hlt := hline.lt_length
    rcases h with rfl | h
    · rw [zeditBounds, if_pos rfl] at hse
      cases hse
    · omega

/-! ## Moves in place -/

theorem zeditMoveUp_apply {source destination : ℕ} (h : source ≤ destination) (text : ℕ → UInt8)
    (n i : ℕ) :
    zeditMoveUp text source destination n i =
      if destination ≤ i ∧ i < destination + n then text (source + (i - destination)) else text i := by
  induction n generalizing text with
  | zero =>
    rw [zeditMoveUp, if_neg (by omega)]
  | succ n ih =>
    rw [zeditMoveUp, ih]
    -- what is still to be read lies below the byte just written
    by_cases hin : destination ≤ i ∧ i < destination + n
    · rw [if_pos hin, if_pos (by omega), Function.update_of_ne (by omega)]
    · rw [if_neg hin]
      by_cases hi : i = destination + n
      · rw [hi, Function.update_self, if_pos (by omega), Nat.add_sub_cancel_left]
      · rw [Function.update_of_ne hi, if_neg (by omega)]

theorem zeditMoveDown_apply {source destination : ℕ} (h : destination ≤ source)
    (text : ℕ → UInt8) (n i : ℕ) :
    zeditMoveDown text source destination n i =
      if destination ≤ i ∧ i < destination + n then text (source + (i - destination)) else text i := by
  induction n generalizing text source destination with
  | zero =>
    rw [zeditMoveDown, if_neg (by omega)]
  | succ n ih =>
    rw [zeditMoveDown, ih (by omega)]
    -- what is still to be read lies above the byte just written
    by_cases hin : destination + 1 ≤ i ∧ i < destination + 1 + n
    · rw [if_pos hin, if_pos (by omega), Function.update_of_ne (by omega)]
      congr 1
      omega
    · rw [if_neg hin]
      by_cases hi : i = destination
      · rw [hi, Function.update_self, if_pos (by omega), Nat.sub_self, Nat.add_zero]
      · rw [Function.update_of_ne hi, if_neg (by omega)]

theorem zeditStore_of_lt (text : ℕ → UInt8) {i : ℕ} (bytes : List UInt8) (h : i < start) :
    zeditStore text start bytes i = text i := by
  induction bytes generalizing text start with
  | nil => rfl
  | cons b bytes ih => rw [zeditStore, ih _ (by omega), Function.update_of_ne (by omega)]

theorem zeditStore_of_ge (text : ℕ → UInt8) {i : ℕ} (bytes : List UInt8)
    (h : start + bytes.length ≤ i) : zeditStore text start bytes i = text i := by
  induction bytes generalizing text start with
  | nil => rfl
  | cons b bytes ih =>
    rw [List.length_cons] at h
    rw [zeditStore, ih _ (by omega), Function.update_of_ne (by omega)]

theorem zeditStore_inside (text : ℕ → UInt8) (start : ℕ) (bytes : List UInt8) (i : ℕ)
    (hi : i < bytes.length) : zeditStore text start bytes (start + i) = bytes[i] := by
  induction bytes generalizing text start i with
  | nil => simp at hi
  | cons b bytes ih =>
    cases i with
    | zero =>
      rw [zeditStore, zeditStore_of_lt _ _ (by omega), Nat.add_zero, Function.update_self]
      rfl
    | succ i =>
      rw [zeditStore, show start + (i + 1) = start + 1 + i by omega]
      exact ih _ _ _ (by simpa using hi)

/-- Either way, the tail ends up where it belongs. -/
theorem zeditMove_apply (text : ℕ → UInt8) (source destination n i : ℕ) :
    (if destination > source then zeditMoveUp text source destination n
      else zeditMoveDown text source destination n) i =
      if destination ≤ i ∧ i < destination + n then text (source + (i - destination)) else text i := by
  split_ifs with hup
  all_goals first
    | exact (zeditMoveUp_apply (le_of_lt hup) text n i).trans (by simp [*])
    | exact (zeditMoveDown_apply (not_lt.1 hup) text n i).trans (by simp [*])

/-! ## The two edits -/

/-- An edit replaces the text and nothing else. -/
structure ZEdit.Retexted (z z' : ZEdit) : Prop where
  fields : z' = { z with text := z'.text, length := z'.length, dirty := true }
  terminated : z'.text z'.length = z.text z.length

variable {stop : ℕ}

/-- **A splice is a replacement.** The bytes of `[start, stop)` give way to one line, and the tail
moves as a whole. -/
theorem zeditSplice_content {z' : ZEdit} {body : List UInt8} {appendEof : Bool}
    (hstart : start ≤ stop) (hstop : stop ≤ z.length)
    (h : zeditSplice z start stop body appendEof = some z') :
    z'.content = z.content.take start ++ (zeditPrefix z appendEof ++ body ++ [10]) ++
      z.content.drop stop ∧ z'.length ≤ zssMaxFile ∧ z.Retexted z' := by
  unfold zeditSplice at h
  dsimp only at h
  split at h
  · cases h
  rename_i hfull
  obtain rfl := Option.some.inj h
  have hbytes : (zeditPrefix z appendEof ++ body ++ [10]).length =
      (zeditPrefix z appendEof).length + body.length + 1 := by simp [Nat.add_assoc]
  rw [← hbytes] at hfull ⊢
  generalize zeditPrefix z appendEof ++ body ++ [10] = bytes at hfull ⊢
  have hlen : z.length - (stop - start) + bytes.length = start + bytes.length + (z.length - stop) := by
    omega
  refine ⟨?_, by dsimp only; omega, rfl, ?_⟩
  · rw [ZEdit.content, ZEdit.content]
    dsimp only
    rw [hlen]
    refine window_splice hstart hstop ?_ (zeditStore_inside _ _ _) ?_
    · intro i hi
      rw [zeditStore_of_lt _ _ hi, zeditMove_apply, if_neg (by omega)]
    · intro i hi
      rw [zeditStore_of_ge _ _ (by omega), zeditMove_apply, if_pos (by omega)]
      congr 1
      omega
  · dsimp only
    rw [hlen, zeditStore_of_ge _ _ (by omega), zeditMove_apply, if_pos (by omega)]
    congr 1
    omega

/-- The text has no room exactly where the splice is refused. -/
theorem zeditSplice_none {body : List UInt8} {appendEof : Bool} (hstop : stop ≤ z.length) :
    zeditSplice z start stop body appendEof = none ↔
      zssMaxFile < z.length - (stop - start) +
        ((zeditPrefix z appendEof).length + body.length + 1) := by
  unfold zeditSplice
  dsimp only
  split_ifs with hfull
  · simp only [true_iff]
    omega
  · simp only [false_iff]
    omega

/-- **A deletion drops the bytes of the line.** -/
theorem zeditDeleteLine_content (hstart : start ≤ stop) (hstop : stop ≤ z.length)
    (hb : zeditBounds z number = some (start, stop)) :
    ∃ z', zeditDeleteLine z number = some z' ∧
      z'.content = z.content.take start ++ z.content.drop stop ∧ z'.length ≤ z.length ∧
      z.Retexted z' := by
  refine ⟨_, by rw [zeditDeleteLine, hb], ?_, by dsimp only; omega, rfl, ?_⟩
  · have hsplice := @window_splice z.text (zeditMoveDown z.text stop start (z.length + 1 - stop))
      z.length start stop [] hstart hstop ?_ ?_ ?_
    · rw [ZEdit.content, ZEdit.content]
      dsimp only
      rw [show z.length - (stop - start) = start + ([] : List UInt8).length + (z.length - stop) by
        simp; omega, hsplice, List.append_nil]
    · intro i hi
      rw [zeditMoveDown_apply hstart, if_neg (by omega)]
    · intro i hi
      simp at hi
    · intro i hi
      rw [zeditMoveDown_apply hstart, List.length_nil, Nat.add_zero, if_pos (by omega)]
      congr 1
      omega
  · dsimp only
    rw [zeditMoveDown_apply hstart, if_pos (by omega)]
    congr 1
    omega

end ZealBringup.Editor
