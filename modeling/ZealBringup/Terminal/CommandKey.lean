import ZealBringup.Editor.Splice
import ZealBringup.Lib.EditLine
import ZealBringup.Terminal.CommandLine

/-!
# What a key does to the line

* `Rep` — a buffer with its length and position, and the line with a cursor that it stands for.
* `commandKey_rep` — a key does to the buffer what it does to the line.
* `fill_rep` — the same for the characters of a completion.
* `bufferSet_holds` — a text put into a buffer.
-/

namespace ZealBringup.Terminal

open Editor (window window_add window_succ window_congr length_window window_splice)

/-! ## Texts in buffers -/

/-- The first bytes of a buffer are a text, and a zero follows. -/
structure Holds (b : Bytes) (n : ℕ) (t : List UInt8) : Prop where
  text : window b n = t
  limit : n ≤ 255
  nul : b n = 0
  solid : ∀ x ∈ t, x ≠ 0

variable {b : Bytes} {n : ℕ} {t : List UInt8}

theorem Holds.length (h : Holds b n t) : t.length = n := by
  rw [← h.text, length_window]

/-- A text without zeros is the string that the buffer holds. -/
theorem Holds.cstr_eq (h : Holds b n t) : cstr b = t := by
  obtain ⟨k, hk⟩ := Nat.exists_eq_add_of_le (show n + 1 ≤ 256 by have := h.limit; omega)
  unfold cstr
  rw [hk, window_add, window_succ, h.text, h.nul, List.append_assoc,
    List.takeWhile_append_of_pos fun x hx => by simpa using h.solid x hx]
  simp

variable {i : ℕ}

theorem load_of_lt (b : Bytes) (h : i < 256) : load b i = some (b i) := if_pos h

theorem store_of_lt (b : Bytes) (v : UInt8) (h : i < 256) :
    store b i v = some (Function.update b i v) := if_pos h

theorem copyInto_spec {value : ℕ → Option UInt8} {v : ℕ → UInt8} (b : Bytes) (hn : n ≤ 256)
    (hv : ∀ i < n, value i = some (v i)) :
    ∃ b', copyInto b value n = some b' ∧ ∀ j < n, b' j = v j := by
  induction n with
  | zero => exact ⟨b, rfl, fun j hj => absurd hj (Nat.not_lt_zero j)⟩
  | succ n ih =>
    obtain ⟨b', hcopy, hsame⟩ := ih (by omega) fun i hi => hv i (by omega)
    refine ⟨Function.update b' n (v n), ?_, fun j hj => ?_⟩
    · simp [copyInto, hcopy, hv n (by omega), store_of_lt _ _ (show n < 256 by omega)]
    · by_cases hjn : j = n
      · rw [hjn, Function.update_self]
      · rw [Function.update_of_ne hjn, hsame j (by omega)]

/-- **A text put into a buffer.** -/
theorem bufferSet_holds {value : ℕ → Option UInt8} (b : Bytes) (len : ℕ) (hlimit : t.length ≤ 255)
    (hsolid : ∀ x ∈ t, x ≠ 0) (hvalue : ∀ (i : ℕ) (hi : i < t.length), value i = some t[i]) :
    ∃ b', bufferSet b len value t.length = some (0x2a, b', t.length) ∧ Holds b' t.length t := by
  have hv : ∀ i < t.length, value i = some (t.getD i 0) := fun i hi => by
    rw [hvalue i hi, List.getD_eq_getElem _ _ hi]
  obtain ⟨b', hcopy, hsame⟩ := copyInto_spec b (by omega) hv
  refine ⟨Function.update b' t.length 0, ?_, ?_, hlimit, Function.update_self .., hsolid⟩
  · simp [bufferSet, hcopy, show ¬ 255 < t.length by omega,
      store_of_lt _ _ (show t.length < 256 by omega)]
  · refine Editor.window_getElem _ t fun i hi => ?_
    rw [Function.update_of_ne (by omega), hsame i hi, List.getD_eq_getElem _ _ hi]

theorem Holds.load (h : Holds b n t) (i : ℕ) (hi : i < t.length) : load b i = some t[i] := by
  have hlen := h.length
  have hlimit := h.limit
  rw [load_of_lt b (by omega)]
  congr 1
  simp [← h.text, window]

/-! ## The loops -/

theorem shiftDown_spec (h : i + n < 256) :
    ∃ b', shiftDown b i n = some b' ∧
      ∀ j, b' j = if i ≤ j ∧ j < i + n then b (j + 1) else b j := by
  induction n generalizing b i with
  | zero => exact ⟨b, rfl, fun j => by rw [if_neg (by omega)]⟩
  | succ n ih =>
    obtain ⟨b', hshift, hsame⟩ := ih (b := Function.update b i (b (i + 1))) (i := i + 1) (by omega)
    refine ⟨b', ?_, fun j => ?_⟩
    · simp [shiftDown, load_of_lt b (show i + 1 < 256 by omega),
        store_of_lt b _ (show i < 256 by omega), hshift]
    · rw [hsame]
      -- what is still to be read lies above the byte just written
      by_cases hin : i + 1 ≤ j ∧ j < i + 1 + n
      · rw [if_pos hin, if_pos (by omega), Function.update_of_ne (by omega)]
      · rw [if_neg hin]
        by_cases hj : j = i
        · rw [hj, Function.update_self, if_pos (by omega)]
        · rw [Function.update_of_ne hj, if_neg (by omega)]

theorem shiftUp_spec {pos : ℕ} (h : pos + n < 256) :
    ∃ b', shiftUp b pos n = some b' ∧
      ∀ j, b' j = if pos < j ∧ j ≤ pos + n then b (j - 1) else b j := by
  induction n generalizing b with
  | zero => exact ⟨b, rfl, fun j => by rw [if_neg (by omega)]⟩
  | succ n ih =>
    obtain ⟨b', hshift, hsame⟩ := ih (b := Function.update b (pos + n + 1) (b (pos + n))) (by omega)
    refine ⟨b', ?_, fun j => ?_⟩
    · simp [shiftUp, load_of_lt b (show pos + n < 256 by omega),
        store_of_lt b _ (show pos + n + 1 < 256 by omega), hshift]
    · rw [hsame]
      -- what is still to be read lies below the byte just written
      by_cases hin : pos < j ∧ j ≤ pos + n
      · rw [if_pos hin, if_pos (by omega), Function.update_of_ne (by omega)]
      · rw [if_neg hin]
        by_cases hj : j = pos + n + 1
        · rw [hj, Function.update_self, if_pos (by omega), Nat.add_sub_cancel]
        · rw [Function.update_of_ne hj, if_neg (by omega)]

/-- A byte taken out of the text. -/
theorem Holds.delete {b' : Bytes} {A B : List UInt8} {x : UInt8} (h : Holds b n (A ++ x :: B))
    (hb : ∀ j, b' j = if A.length ≤ j ∧ j < A.length + (n - A.length) then b (j + 1) else b j) :
    Holds b' (n - 1) (A ++ B) := by
  have hlen := h.length
  have hlimit := h.limit
  rw [List.length_append, List.length_cons] at hlen
  refine ⟨?_, by omega, ?_, fun y hy => h.solid y ?_⟩
  · have hdrop : (A ++ x :: B).drop (A.length + 1) = B := by
      rw [← List.drop_drop, List.drop_left]
      rfl
    have hsplice : window b' (A.length + [].length + (n - (A.length + 1))) =
        (window b n).take A.length ++ [] ++ (window b n).drop (A.length + 1) :=
      window_splice (by omega) (by omega) (fun i hi => by rw [hb, if_neg (by omega)])
        (fun i hi => absurd hi (Nat.not_lt_zero i)) fun i hi => by
          rw [List.length_nil, hb, if_pos (by omega)]
          congr 1
          omega
    rw [h.text, List.append_nil, List.take_left, hdrop] at hsplice
    rw [← hsplice]
    congr 1
    simp
    omega
  · rw [hb, if_pos (by omega), show n - 1 + 1 = n by omega, h.nul]
  · rw [List.mem_append] at hy ⊢
    exact hy.imp_right (List.mem_cons_of_mem x)

/-- A byte put into the text. -/
theorem Holds.insert {b' : Bytes} {A B : List UInt8} {x : UInt8} (h : Holds b n (A ++ B))
    (hn : n < 255) (hx : x ≠ 0)
    (hb : ∀ j, b' j = if A.length < j ∧ j ≤ A.length + (n - A.length + 1) then b (j - 1) else b j) :
    Holds (Function.update b' A.length x) (n + 1) (A ++ [x] ++ B) := by
  have hlen := h.length
  rw [List.length_append] at hlen
  refine ⟨?_, by omega, ?_, fun y hy => ?_⟩
  · have hsplice : window (Function.update b' A.length x)
          (A.length + [x].length + (n - A.length)) =
        (window b n).take A.length ++ [x] ++ (window b n).drop A.length :=
      window_splice le_rfl (by omega)
        (fun i hi => by rw [Function.update_of_ne (by omega), hb, if_neg (by omega)])
        (fun i hi => by
          obtain rfl : i = 0 := by simpa using hi
          exact Function.update_self ..)
        fun i hi => by
          rw [List.length_singleton, Function.update_of_ne (by omega), hb, if_pos (by omega)]
          congr 1
          omega
    rw [h.text, List.take_left, List.drop_left, List.length_singleton] at hsplice
    rw [← hsplice]
    congr 1
    omega
  · rw [Function.update_of_ne (by omega), hb, if_pos (by omega), Nat.add_sub_cancel, h.nul]
  · simp only [List.mem_append, List.mem_singleton] at hy
    rcases hy with (hy | rfl) | hy
    · exact h.solid y (List.mem_append_left B hy)
    · exact hx
    · exact h.solid y (List.mem_append_right A hy)

/-! ## The line -/

/-- The line that a buffer with its length and position stands for. -/
structure Rep (c : Command) (e : EditLine UInt8) : Prop where
  holds : Holds c.bytes c.len e.text
  pos : c.pos = e.before.length

variable {c : Command} {e : EditLine UInt8}

theorem Rep.len (h : Rep c e) :
    c.len = e.before.length + e.after.length := by
  rw [← h.holds.length, EditLine.length_text]

/-- What a key asks for. -/
def keyOf (ch : ℤ) (code : UInt8) : Option (EditLine.Key UInt8) :=
  if ch = 0 then
    if code = SC_CURSOR_LEFT then some .left
    else if code = SC_CURSOR_RIGHT then some .right
    else if code = SC_HOME then some .home
    else if code = SC_END then some .fin
    else if code = SC_DELETE then some .delete
    else none
  else if ch = 8 ∨ ch = 127 then some .backspace
  else if printable ch then some (.insert (UInt8.ofNat ch.toNat))
  else none

/-- The answer to a key, and the line. -/
def editKey (e : EditLine UInt8) (ch : ℤ) (code : UInt8) : ℕ × EditLine UInt8 :=
  match keyOf ch code with
  | none => (0, e)
  | some k =>
    match e.apply 255 k with
    | none => (2, e)
    | some e' => (1, e')

variable {ch : ℤ}

theorem ofNat_ne_zero (h : printable ch = true) : UInt8.ofNat ch.toNat ≠ 0 := by
  simp only [printable, Bool.and_eq_true, decide_eq_true_eq] at h
  obtain ⟨n, rfl⟩ := Int.eq_ofNat_of_zero_le (show 0 ≤ ch by omega)
  intro hz
  have hmod := congrArg UInt8.toNat hz
  rw [Int.toNat_natCast, UInt8.toNat_ofNat'] at hmod
  simp at hmod
  omega

theorem keyOf_of_printable (h : printable ch = true) (code : UInt8) :
    keyOf ch code = some (.insert (UInt8.ofNat ch.toNat)) := by
  have hrange := h
  simp only [printable, Bool.and_eq_true, decide_eq_true_eq] at hrange
  rw [keyOf, if_neg (by omega), if_neg (by omega), if_pos h]

/-- A key that is taken or refused. -/
theorem editKey_of_some {code : UInt8} {k : EditLine.Key UInt8} (h : keyOf ch code = some k) :
    editKey e ch code = ((e.apply 255 k).elim 2 fun _ => 1, (e.apply 255 k).getD e) := by
  rw [editKey, h]
  dsimp only
  cases e.apply 255 k <;> rfl

/-- The cursor moves in the text as it is. -/
theorem Rep.move {e' : EditLine UInt8} (h : Rep c e) (htext : e'.text = e.text) :
    Rep { c with pos := e'.before.length } e' := ⟨htext ▸ h.holds, rfl⟩

/-- The buffer after a key stands for the line after it. -/
def Follows (c : Command) (e : EditLine UInt8) (ch : ℤ) (scan : UInt64) : Prop :=
  ∃ c', commandKey c ch scan = some ((editKey e ch scan.toUInt8).1, c') ∧
    Rep c' (editKey e ch scan.toUInt8).2

theorem follows_scan (h : Rep c e) (hch : ch = 0) (scan : UInt64) : Follows c e ch scan := by
  have hlen := h.len
  have hpos := h.pos
  have hlimit := h.holds.limit
  obtain ⟨A, B⟩ := e
  dsimp only at hlen hpos
  unfold Follows commandKey
  dsimp only
  rw [if_neg (by omega)]
  rw [if_pos hch]
  by_cases hleft : scan.toUInt8 = SC_CURSOR_LEFT
  · have hkey : keyOf ch scan.toUInt8 = some .left := by rw [keyOf, if_pos hch, if_pos hleft]
    rw [if_pos hleft, editKey_of_some hkey]
    obtain rfl | ⟨A', x, rfl⟩ := List.eq_nil_or_concat' A
    · exact ⟨c, if_neg (not_not.mpr hpos), h⟩
    · rw [List.length_append, List.length_singleton] at hpos
      rw [if_pos (by omega)]
      refine ⟨_, by simp [EditLine.apply]; rfl, ?_⟩
      have hmove := @Rep.move c _ ⟨A', x :: B⟩ h (by simp [EditLine.text])
      simpa [EditLine.apply, hpos] using hmove
  rw [if_neg hleft]
  by_cases hright : scan.toUInt8 = SC_CURSOR_RIGHT
  · have hkey : keyOf ch scan.toUInt8 = some .right := by
      rw [keyOf, if_pos hch, if_neg hleft, if_pos hright]
    rw [if_pos hright, editKey_of_some hkey]
    cases B with
    | nil =>
      rw [List.length_nil, Nat.add_zero] at hlen
      exact ⟨c, if_neg (by omega), h⟩
    | cons x B =>
      rw [List.length_cons] at hlen
      rw [if_pos (by omega)]
      refine ⟨_, rfl, ?_⟩
      have hmove := @Rep.move c _ ⟨A ++ [x], B⟩ h (by simp [EditLine.text])
      simpa [EditLine.apply, hpos] using hmove
  rw [if_neg hright]
  by_cases hhome : scan.toUInt8 = SC_HOME
  · have hkey : keyOf ch scan.toUInt8 = some .home := by
      rw [keyOf, if_pos hch, if_neg hleft, if_neg hright, if_pos hhome]
    rw [if_pos hhome, editKey_of_some hkey]
    by_cases hA : A = []
    · subst hA
      exact ⟨c, if_neg (not_not.mpr hpos), h⟩
    · have hne := List.length_pos_of_ne_nil hA
      rw [if_pos (by omega)]
      refine ⟨_, by simp [EditLine.apply, hA]; rfl, ?_⟩
      have hmove := @Rep.move c _ ⟨[], A ++ B⟩ h (by simp [EditLine.text])
      simpa [EditLine.apply, hA, EditLine.text] using hmove
  rw [if_neg hhome]
  by_cases hend : scan.toUInt8 = SC_END
  · have hkey : keyOf ch scan.toUInt8 = some .fin := by
      rw [keyOf, if_pos hch, if_neg hleft, if_neg hright, if_neg hhome, if_pos hend]
    rw [if_pos hend, editKey_of_some hkey]
    by_cases hB : B = []
    · subst hB
      rw [List.length_nil, Nat.add_zero] at hlen
      exact ⟨c, if_neg (by omega), h⟩
    · have hne := List.length_pos_of_ne_nil hB
      rw [if_pos (by omega)]
      refine ⟨_, by simp [EditLine.apply, hB]; rfl, ?_⟩
      have hmove := @Rep.move c _ ⟨A ++ B, []⟩ h (by simp [EditLine.text])
      simpa [EditLine.apply, hB, EditLine.text, hlen] using hmove
  rw [if_neg hend]
  by_cases hdelete : scan.toUInt8 = SC_DELETE
  · have hkey : keyOf ch scan.toUInt8 = some .delete := by
      rw [keyOf, if_pos hch, if_neg hleft, if_neg hright, if_neg hhome, if_neg hend,
        if_pos hdelete]
    rw [if_pos hdelete, editKey_of_some hkey]
    cases B with
    | nil =>
      rw [List.length_nil, Nat.add_zero] at hlen
      exact ⟨c, if_pos (by omega), h⟩
    | cons x B =>
      rw [List.length_cons] at hlen
      rw [if_neg (by omega)]
      obtain ⟨b', hshift, hsame⟩ := shiftDown_spec (b := c.bytes) (i := c.pos) (n := c.len - c.pos)
        (by omega)
      rw [hshift]
      refine ⟨_, rfl, ?_, hpos⟩
      rw [hpos] at hsame
      exact h.holds.delete hsame
  · have hkey : keyOf ch scan.toUInt8 = none := by
      rw [keyOf, if_pos hch, if_neg hleft, if_neg hright, if_neg hhome, if_neg hend,
        if_neg hdelete]
    rw [if_neg hdelete, editKey, hkey]
    exact ⟨c, rfl, h⟩

theorem follows_backspace (h : Rep c e) (hback : ch = 8 ∨ ch = 127) (scan : UInt64) :
    Follows c e ch scan := by
  have hlen := h.len
  have hpos := h.pos
  have hlimit := h.holds.limit
  obtain ⟨A, B⟩ := e
  dsimp only at hlen hpos
  unfold Follows commandKey
  dsimp only
  rw [if_neg (by omega)]
  have hkey : keyOf ch scan.toUInt8 = some .backspace := by
    rw [keyOf, if_neg (by omega), if_pos hback]
  rw [if_neg (by omega), if_pos hback, editKey_of_some hkey]
  obtain rfl | ⟨A', x, rfl⟩ := List.eq_nil_or_concat' A
  · exact ⟨c, if_pos hpos, h⟩
  · rw [List.length_append, List.length_singleton] at hpos hlen
    rw [if_neg (by omega)]
    obtain ⟨b', hshift, hsame⟩ := shiftDown_spec (b := c.bytes) (i := c.pos - 1)
      (n := c.len - (c.pos - 1)) (by omega)
    rw [hshift]
    have hpos' : c.pos - 1 = A'.length := by omega
    rw [hpos'] at hsame
    have hholds : Holds c.bytes c.len (A' ++ x :: B) := by
      simpa [EditLine.text] using h.holds
    refine ⟨_, by simp [EditLine.apply]; rfl, ?_, ?_⟩
    · simpa [EditLine.apply, EditLine.text] using hholds.delete hsame
    · simpa [EditLine.apply] using hpos'

theorem follows_insert (h : Rep c e) (hprint : printable ch = true) (scan : UInt64) :
    Follows c e ch scan := by
  have hrange := hprint
  simp only [printable, Bool.and_eq_true, decide_eq_true_eq] at hrange
  have hlen := h.len
  have hpos := h.pos
  have hlimit := h.holds.limit
  obtain ⟨A, B⟩ := e
  dsimp only at hlen hpos
  unfold Follows commandKey
  dsimp only
  rw [if_neg (by omega)]
  rw [if_neg (by omega), if_neg (by omega), if_pos hprint, editKey_of_some (keyOf_of_printable hprint _)]
  by_cases hfull : 255 ≤ c.len
  · have hnone : EditLine.apply 255 ⟨A, B⟩ (.insert (UInt8.ofNat ch.toNat)) = none :=
      EditLine.apply_insert_eq_none.mpr (h.holds.length.symm ▸ hfull)
    rw [if_pos hfull, hnone]
    exact ⟨c, rfl, h⟩
  · have hsome : EditLine.apply 255 ⟨A, B⟩ (.insert (UInt8.ofNat ch.toNat)) =
        some ⟨A ++ [UInt8.ofNat ch.toNat], B⟩ := if_neg (h.holds.length.symm ▸ hfull)
    rw [if_neg hfull, hsome]
    obtain ⟨b', hshift, hsame⟩ : ∃ b', shiftUp c.bytes c.pos (c.len - c.pos + 1) = some b' ∧ _ :=
      shiftUp_spec (by omega)
    rw [hshift]
    rw [hpos] at hsame
    have hput := h.holds.insert (by omega) (ofNat_ne_zero hprint) hsame
    refine ⟨_, by simp [store_of_lt _ _ (show c.pos < 256 by omega)]; rfl, ?_, ?_⟩
    · simpa [hpos, EditLine.text] using hput
    · simpa using hpos

/-- **A key does to the buffer what it does to the line.** -/
theorem commandKey_rep (h : Rep c e) (ch : ℤ) (scan : UInt64) :
    Follows c e ch scan := by
  by_cases hch : ch = 0
  · exact follows_scan h hch scan
  by_cases hback : ch = 8 ∨ ch = 127
  · exact follows_backspace h hback scan
  by_cases hprint : printable ch = true
  · exact follows_insert h hprint scan
  · have hlen := h.len
    have hpos := h.pos
    have hlimit := h.holds.limit
    have hkey : keyOf ch scan.toUInt8 = none := by
      rw [keyOf, if_neg hch, if_neg hback, if_neg hprint]
    unfold Follows commandKey editKey
    dsimp only
    rw [if_neg (by omega), if_neg hch, if_neg hback, if_neg hprint, hkey]
    exact ⟨c, rfl, h⟩

/-- A key that is not taken leaves everything as it was. -/
theorem commandKey_refused {c' : Command} {scan : UInt64} {answer : ℕ}
    (h : commandKey c ch scan = some (answer, c')) (hanswer : answer ≠ 1) : c' = c := by
  have htaken : ∀ {x : Command}, some (1, x) = some (answer, c') → c' = c := fun heq =>
    absurd (Prod.mk.inj (Option.some.inj heq)).1.symm hanswer
  have hkept : ∀ {a : ℕ}, some (a, c) = some (answer, c') → c' = c := fun heq =>
    (Prod.mk.inj (Option.some.inj heq)).2.symm
  unfold commandKey at h
  dsimp only at h
  split_ifs at h <;> first
    | exact hkept h
    | exact htaken h
    | (obtain ⟨bytes, -, hr⟩ := Option.bind_eq_some_iff.mp h
       exact htaken hr)
    | (obtain ⟨bytes, -, hr⟩ := Option.bind_eq_some_iff.mp h
       obtain ⟨bytes', -, hr'⟩ := Option.bind_eq_some_iff.mp hr
       exact htaken hr')

/-! ## The characters of a completion -/

/-- The characters of a completion, until one of them is not taken; and whether that one was a
character that found no room. -/
def typeWord (e : EditLine UInt8) : List UInt8 → EditLine UInt8 × Bool
  | [] => (e, false)
  | ch :: word =>
    if ch = 0 then (e, false)
    else if (editKey e ch.toNat 0).1 = 1 then typeWord (editKey e ch.toNat 0).2 word
    else (e, printable ch.toNat && e.text.length = 255)

/-- The characters of a completion meet a full line. -/
def meetsFull (len pos : ℕ) : List UInt8 → Bool
  | [] => false
  | ch :: word =>
    if ch = 8 ∨ ch = 127 then pos ≠ 0 && meetsFull (len - 1) (pos - 1) word
    else printable ch.toNat && (len = 255 || meetsFull (len + 1) (pos + 1) word)

theorem fill_rep (h : Rep c e) (word : List UInt8) :
    ∃ c', fill c word = some c' ∧ Rep c' (typeWord e word).1 := by
  induction word generalizing c e with
  | nil => exact ⟨c, rfl, h⟩
  | cons ch word ih =>
    rw [fill, typeWord]
    by_cases h0 : ch = 0
    · rw [if_pos h0, if_pos h0]
      exact ⟨c, rfl, h⟩
    · rw [if_neg h0, if_neg h0]
      obtain ⟨c', hkey, hrep⟩ := commandKey_rep h (ch.toNat : ℤ) 0
      have hcode : (0 : UInt64).toUInt8 = 0 := rfl
      rw [hcode] at hkey hrep
      by_cases hone : (editKey e ch.toNat 0).1 = 1
      · obtain ⟨c'', hfill, hrep'⟩ := ih hrep
        rw [if_pos hone]
        exact ⟨c'', by simp [hkey, hone, hfill], hrep'⟩
      · rw [if_neg hone]
        have hsame := commandKey_refused hkey hone
        subst hsame
        exact ⟨c', by simp [hkey, hone], h⟩

/-- Where the line is full is a matter of its length and the position. -/
theorem typeWord_full (e : EditLine UInt8) (h : e.text.length ≤ 255) (word : List UInt8) :
    (typeWord e word).2 = meetsFull e.text.length e.before.length word := by
  induction word generalizing e with
  | nil => rfl
  | cons ch word ih =>
    rw [typeWord, meetsFull]
    by_cases h0 : ch = 0
    · subst h0
      rfl
    rw [if_neg h0]
    have hne : (ch.toNat : ℤ) ≠ 0 := by
      intro heq
      exact h0 (UInt8.toNat_inj.mp (by simpa using heq))
    have hback : (ch = 8 ∨ ch = 127) ↔ ((ch.toNat : ℤ) = 8 ∨ (ch.toNat : ℤ) = 127) := by
      rw [← UInt8.toNat_inj, ← UInt8.toNat_inj]
      norm_cast
    by_cases hch : ch = 8 ∨ ch = 127
    · have hkey : keyOf (ch.toNat : ℤ) 0 = some .backspace := by
        rw [keyOf, if_neg hne, if_pos (hback.mp hch)]
      have hprint : printable (ch.toNat : ℤ) = false := by
        obtain rfl | rfl := hch <;> decide
      rw [if_pos hch, editKey_of_some hkey]
      obtain ⟨A, B⟩ := e
      obtain rfl | ⟨A', x, rfl⟩ := List.eq_nil_or_concat' A
      · simp [EditLine.apply, hprint]
      · have hlen : (⟨A', B⟩ : EditLine UInt8).text.length ≤ 255 := by
          simp only [EditLine.text, List.length_append, List.length_singleton] at h ⊢
          omega
        have hrest := ih ⟨A', B⟩ hlen
        simp only [EditLine.text, List.length_append] at hrest
        simp [EditLine.apply, EditLine.text, hrest]
    · rw [if_neg hch]
      by_cases hprint : printable (ch.toNat : ℤ) = true
      · rw [editKey_of_some (keyOf_of_printable hprint 0), hprint, Bool.true_and, Bool.true_and]
        by_cases hfull : 255 ≤ e.text.length
        · have hnone := EditLine.apply_insert_eq_none (x := UInt8.ofNat (ch.toNat : ℤ).toNat)
            |>.mpr hfull
          have heq : e.text.length = 255 := by omega
          rw [hnone, heq]
          rfl
        · have hsome : e.apply 255 (.insert (UInt8.ofNat (ch.toNat : ℤ).toNat)) =
              some ⟨e.before ++ [UInt8.ofNat (ch.toNat : ℤ).toNat], e.after⟩ := if_neg hfull
          have hlen : (⟨e.before ++ [UInt8.ofNat (ch.toNat : ℤ).toNat], e.after⟩ :
              EditLine UInt8).text.length = e.text.length + 1 := by
            simp only [EditLine.text, List.length_append, List.length_singleton]
            omega
          have hrest := ih ⟨e.before ++ [UInt8.ofNat (ch.toNat : ℤ).toNat], e.after⟩ (by omega)
          rw [hlen, List.length_append, List.length_singleton] at hrest
          have hneq : ¬ e.text.length = 255 := by omega
          rw [hsome]
          simp only [Option.elim_some, Option.getD_some, if_true, hrest, hneq, decide_false,
            Bool.false_or]
      · have hkey : keyOf (ch.toNat : ℤ) 0 = none := by
          rw [keyOf, if_neg hne, if_neg (hback.not.mp hch), if_neg hprint]
        have hfalse : printable (ch.toNat : ℤ) = false := by simpa using hprint
        rw [editKey, hkey, hfalse]
        rfl

end ZealBringup.Terminal
