import ZealBringup.Terminal.CommandKey

/-!
# The reader and the reference line

The reader of the terminal does to its buffers what a line with a cursor does under the same
messages, whatever the messages are.  Its overflow flag is another matter: it says whether a
character found no room since the line was last emptied or replaced, except where the line is
emptied by Down or replaced by the history while the flag is set, and where a completion finds no
room.

* `Reader.input_rep` — one message, or a new call.
* `run_rep` — a run.
* `input_flag` — which messages keep the flag right.
-/

namespace ZealBringup.Terminal

open Editor (window)

/-! ## The reference -/

/-- A line with a cursor, the line before it, and whether a character found no room. -/
structure Reference where
  line : EditLine UInt8
  history : List UInt8
  refused : Bool

namespace Reference

def empty (r : Reference) : Reference := { r with line := EditLine.clear, refused := false }

def lineKey (r : Reference) (ch : ℤ) (code : UInt8) : Event × Reference :=
  (.key (editKey r.line ch code).1, { r with
    line := (editKey r.line ch code).2
    refused := r.refused || printable ch && r.line.text.length = 255 })

/-- Return, which discards the line or not. -/
def enter (r : Reference) (discards continuation shellOutput : Bool) : Event × Reference :=
  if discards then (.discarded, r)
  else if r.line.text = [] ∧ ¬ continuation then (.none, r.empty)
  else
    let r := if continuation then r else { r with history := r.line.text }
    match taker r.line.text continuation shellOutput with
    | .caller => (.submitted r.line.text .caller, r)
    | who => (.submitted r.line.text who, r.empty)

/-- One message, for a reader that is in a call or not, and discards the line at Return or not. -/
def handle (r : Reference) (reading continuation discards : Bool) (m : Message) (w : Around) :
    Event × Reference :=
  if !reading then (.none, r)
  else
    match m with
    | .other => (.none, r)
    | .keyUp ch sc =>
      if sc = GUI_MENU_ACTION_TAG then
        match menuSource ch with
        | some output => (.menuLine output, { r with history := output })
        | none => (.menuAction, r.empty)
      else (.none, r)
    | .keyDown ch sc =>
      if ch = 13 ∨ ch = 10 then r.enter discards continuation w.shellOutput
      else if ch = 27 then if w.paintActive then (.paintStopped, r.empty) else (.aborted, r)
      else if ch = 0 ∧ sc.toUInt8 = SC_CURSOR_UP ∧ r.history ≠ [] then
        (.recalled, { r with line := EditLine.recalled r.history, refused := false })
      else if ch = 0 ∧ sc.toUInt8 = SC_CURSOR_DOWN then (.cleared, r.empty)
      else if ch = 0 ∧ sc &&& SCF_CTRL ≠ 0 ∧ (functionKey sc.toUInt8).isSome then
        let typed := typeWord r.line (w.ac.rest ((functionKey sc.toUInt8).getD 0))
        (.completed, { r with line := typed.1, refused := r.refused || typed.2 })
      else r.lineKey ch sc.toUInt8

end Reference

/-! ## A run -/

/-- A new call, or a message for the one that is going on. -/
inductive Input where
  | call (garbage : Bytes) (continuation : Bool)
  | message (m : Message) (w : Around)

def Reader.input (s : Reader) : Input → Option (Event × Reader)
  | .call garbage continuation => do some (.none, ← s.call garbage continuation)
  | .message m w => s.handle m w

def Reference.input (r : Reference) (s : Reader) : Input → Event × Reference
  | .call _ _ => (.none, r.empty)
  | .message m w => r.handle s.reading s.continuation s.overflow m w

/-- Reader and reference side by side. -/
def both (p : Reader × Reference) (i : Input) : Option (Reader × Reference) := do
  let (_, s) ← p.1.input i
  some (s, (p.2.input p.1 i).2)

/-- A run of a terminal that has just been registered. -/
def run (inputs : List Input) : Option (Reader × Reference) :=
  inputs.foldlM both (registered, ⟨EditLine.clear, [], false⟩)

/-! ## One step -/

/-- The buffers stand for the lines of the reference. -/
structure Stands (s : Reader) (r : Reference) : Prop where
  line : Rep s.command r.line
  history : Holds s.history s.historyLen r.history

/-- In a call the flag says whether a character found no room. -/
def Agree (s : Reader) (r : Reference) : Prop := s.reading = true → s.overflow = r.refused

/-- The line is not emptied by Down or replaced by the history while the flag is set, and no
completion finds the line full while it is not. -/
def Keeps (s : Reader) : Input → Prop
  | .message (.keyDown ch sc) w =>
    s.reading = true → ch = 0 →
      (sc.toUInt8 = SC_CURSOR_UP → s.historyLen ≠ 0 → s.overflow = false) ∧
      (sc.toUInt8 = SC_CURSOR_DOWN → s.overflow = false) ∧
      (sc &&& SCF_CTRL ≠ 0 → ∀ n, functionKey sc.toUInt8 = some n →
        s.overflow = true ∨ meetsFull s.command.len s.command.pos (w.ac.rest n) = false)
  | _ => True

variable {s : Reader}

theorem keeps_of_ne {ch : ℤ} (h : ch ≠ 0) (sc : UInt64) (w : Around) :
    Keeps s (.message (.keyDown ch sc) w) := fun _ h0 => absurd h0 h

theorem functionKey_ne {code : UInt8} {n : ℕ} (h : functionKey code = some n) :
    code ≠ SC_CURSOR_UP ∧ code ≠ SC_CURSOR_DOWN := by
  have hup : functionKey SC_CURSOR_UP = none := by decide
  have hdown : functionKey SC_CURSOR_DOWN = none := by decide
  constructor <;> rintro rfl
  · rw [hup] at h
    cases h
  · rw [hdown] at h
    cases h

theorem empty_rep (c : Command) : ∃ c', c.empty = some c' ∧ Rep c' EditLine.clear := by
  have hnul : Function.update c.bytes 0 0 0 = (0 : UInt8) := Function.update_self ..
  refine ⟨⟨Function.update c.bytes 0 0, 0, 0⟩, by simp [Command.empty, store_of_lt], ?_, rfl⟩
  exact ⟨rfl, Nat.zero_le _, hnul, fun x hx => absurd hx List.not_mem_nil⟩

variable {r : Reference}

theorem Stands.empty (h : Stands s r) :
    ∃ c', s.command.empty = some c' ∧ ∀ overflow reading,
      Stands { s with command := c', overflow, reading } r.empty := by
  obtain ⟨c', hempty, hrep⟩ := empty_rep s.command
  exact ⟨c', hempty, fun _ _ => ⟨hrep, h.history⟩⟩

/-- Every line of the menu fits a buffer. -/
theorem menuSource_spec {action : ℤ} {output : List UInt8} (h : menuSource action = some output) :
    output ≠ [] ∧ output.length ≤ 255 ∧ ∀ x ∈ output, x ≠ 0 := by
  unfold menuSource at h
  have hfits : (output != [] && decide (output.length ≤ 255) && output.all (· != 0)) = true := by
    split_ifs at h <;> obtain rfl := Option.some.inj h <;> decide +kernel
  rw [Bool.and_eq_true, Bool.and_eq_true, bne_iff_ne, decide_eq_true_eq, List.all_eq_true] at hfits
  obtain ⟨⟨hne, hlimit⟩, hsolid⟩ := hfits
  exact ⟨hne, hlimit, fun x hx => by simpa using hsolid x hx⟩

theorem literal_of_lt {t : List UInt8} {i : ℕ} (hi : i < t.length) : literal t i = some t[i] := by
  rw [literal, List.getElem?_append_left hi, List.getElem?_eq_getElem hi]

/-- A line that is not empty is put into the history. -/
theorem historySave_holds (history : Bytes) (historyLen : ℕ) {value : ℕ → Option UInt8}
    {t : List UInt8} (hne : t ≠ []) (hlimit : t.length ≤ 255) (hsolid : ∀ x ∈ t, x ≠ 0)
    (hvalue : ∀ (i : ℕ) (hi : i < t.length), value i = some t[i]) :
    ∃ b', historySave history historyLen value t.length = some (0x2a, b', t.length) ∧
      Holds b' t.length t := by
  rw [historySave, if_neg (fun h0 => hne (List.length_eq_zero_iff.mp h0))]
  exact bufferSet_holds history historyLen hlimit hsolid hvalue

theorem Reader.lineKey_rep (h : Stands s r) (ch : ℤ) (sc : UInt64) :
    ∃ s', s.lineKey ch sc = some ((r.lineKey ch sc.toUInt8).1, s') ∧
      Stands s' (r.lineKey ch sc.toUInt8).2 ∧
      (Agree s r → Agree s' (r.lineKey ch sc.toUInt8).2) := by
  obtain ⟨c', hkey, hrep⟩ := commandKey_rep h.line ch sc
  refine ⟨{ s with
    command := c', overflow := s.overflow || printable ch && s.command.len = 255 }, ?_,
    ⟨hrep, h.history⟩, fun hagree hread => ?_⟩
  · simp [lineKey, hkey, Reference.lineKey]
  · show (s.overflow || printable ch && decide (s.command.len = 255)) =
      (r.refused || printable ch && decide (r.line.text.length = 255))
    rw [hagree hread, h.line.holds.length]

theorem Reader.enter_rep (h : Stands s r) (shellOutput : Bool) :
    ∃ s', s.enter shellOutput = some ((r.enter s.overflow s.continuation shellOutput).1, s') ∧
      Stands s' (r.enter s.overflow s.continuation shellOutput).2 ∧
      (Agree s r → Agree s' (r.enter s.overflow s.continuation shellOutput).2) := by
  unfold enter Reference.enter
  by_cases hover : s.overflow = true
  · rw [if_pos hover, if_pos hover]
    exact ⟨_, rfl, ⟨h.line, h.history⟩, fun _ hread => absurd hread Bool.false_ne_true⟩
  rw [if_neg hover, if_neg hover]
  have hclear : s.overflow = false := by simpa using hover
  have hlimit := h.line.holds.limit
  have hlen := h.line.holds.length
  -- the zero that is put behind the text is there already
  have hsame : Function.update s.command.bytes s.command.len 0 = s.command.bytes :=
    Function.update_eq_self_iff.mpr h.line.holds.nul.symm
  obtain ⟨c', hempty, hcleared⟩ := h.empty
  simp only [store_of_lt _ _ (show s.command.len < 256 by omega), hsame, Option.bind_eq_bind,
    Option.bind_some, h.line.holds.cstr_eq]
  have hnil : s.command.len = 0 ↔ r.line.text = [] := by
    rw [← hlen, List.length_eq_zero_iff]
  by_cases hidle : r.line.text = [] ∧ ¬ s.continuation = true
  · rw [if_pos (hidle.imp_left hnil.mpr), if_pos hidle, hempty]
    exact ⟨_, rfl, hcleared s.overflow s.reading, fun _ _ => hclear⟩
  rw [if_neg fun hboth => hidle (hboth.imp_left hnil.mp), if_neg hidle]
  by_cases hcont : s.continuation = true
  · rw [if_pos hcont, if_pos hcont, hcont]
    exact ⟨_, rfl, ⟨h.line, h.history⟩, fun _ hread => absurd hread Bool.false_ne_true⟩
  · rw [if_neg hcont, if_neg hcont]
    obtain ⟨b', hsave, hholds⟩ := historySave_holds s.history s.historyLen
      (fun hno => hidle ⟨hno, hcont⟩) (hlen.symm ▸ hlimit) h.line.holds.solid h.line.holds.load
    rw [hlen] at hsave hholds
    rw [hsave]
    dsimp only [Option.bind_some]
    cases taker r.line.text s.continuation shellOutput with
    | caller =>
      exact ⟨_, rfl, ⟨h.line, hholds⟩, fun _ hread => absurd hread Bool.false_ne_true⟩
    | _ =>
      rw [hempty]
      exact ⟨_, rfl, ⟨(hcleared s.overflow s.reading).line, hholds⟩, fun _ _ => hclear⟩

/-- **One message** does to the buffers what it does to the reference, and keeps the flag right
exactly where it should. -/
theorem Reader.handle_rep (h : Stands s r) (m : Message) (w : Around) :
    ∃ s', s.handle m w = some ((r.handle s.reading s.continuation s.overflow m w).1, s') ∧
      Stands s' (r.handle s.reading s.continuation s.overflow m w).2 ∧
      (Agree s r → (Agree s' (r.handle s.reading s.continuation s.overflow m w).2 ↔
        Keeps s (.message m w))) := by
  obtain ⟨c', hempty, hcleared⟩ := h.empty
  unfold handle Reference.handle
  by_cases hread : s.reading = true
  swap
  · have hread' : (!s.reading) = true := by simpa using hread
    have hkeeps : Keeps s (.message m w) := by
      cases m with
      | keyDown ch sc => exact fun hread'' => absurd hread'' hread
      | _ => trivial
    rw [if_pos hread', if_pos hread']
    exact ⟨s, rfl, h, fun hagree => iff_of_true hagree hkeeps⟩
  have hread' : ¬ (!s.reading) = true := by simpa using hread
  rw [if_neg hread', if_neg hread']
  cases m with
  | other => exact ⟨s, rfl, h, fun hagree => iff_of_true hagree trivial⟩
  | keyUp ch sc =>
    dsimp only
    by_cases htag : sc = GUI_MENU_ACTION_TAG
    · rw [if_pos htag, if_pos htag]
      cases hmenu : menuSource ch with
      | none =>
        rw [hempty]
        exact ⟨_, rfl, hcleared false s.reading, fun _ => iff_of_true (fun _ => rfl) trivial⟩
      | some output =>
        obtain ⟨hne, hlimit, hsolid⟩ := menuSource_spec hmenu
        obtain ⟨b', hsave, hholds⟩ := historySave_holds s.history s.historyLen hne hlimit hsolid
          fun i hi => literal_of_lt hi
        dsimp only
        rw [hsave]
        exact ⟨_, rfl, ⟨h.line, hholds⟩,
          fun _ => iff_of_true (fun hread => absurd hread Bool.false_ne_true) trivial⟩
    · rw [if_neg htag, if_neg htag]
      exact ⟨s, rfl, h, fun hagree => iff_of_true hagree trivial⟩
  | keyDown ch sc =>
    dsimp only
    by_cases henter : ch = 13 ∨ ch = 10
    · rw [if_pos henter, if_pos henter]
      obtain ⟨s', hs, hrep, hflag⟩ := Reader.enter_rep h w.shellOutput
      have hch : ch ≠ 0 := by omega
      exact ⟨s', hs, hrep, fun hagree => iff_of_true (hflag hagree) (keeps_of_ne hch sc w)⟩
    rw [if_neg henter, if_neg henter]
    by_cases hescape : ch = 27
    · rw [if_pos hescape, if_pos hescape]
      have hch : ch ≠ 0 := by omega
      by_cases hpaint : w.paintActive = true
      · rw [if_pos hpaint, if_pos hpaint, hempty]
        exact ⟨_, rfl, hcleared false s.reading,
          fun _ => iff_of_true (fun _ => rfl) (keeps_of_ne hch sc w)⟩
      · rw [if_neg hpaint, if_neg hpaint]
        exact ⟨_, rfl, ⟨h.line, h.history⟩, fun _ => iff_of_true
          (fun hread => absurd hread Bool.false_ne_true) (keeps_of_ne hch sc w)⟩
    rw [if_neg hescape, if_neg hescape]
    have hhistory : s.historyLen = 0 ↔ r.history = [] := by
      rw [← h.history.length, List.length_eq_zero_iff]
    by_cases hup : ch = 0 ∧ sc.toUInt8 = SC_CURSOR_UP ∧ r.history ≠ []
    · rw [if_pos ⟨hup.1, hup.2.1, hhistory.not.mpr hup.2.2⟩, if_pos hup, historyRecall,
        if_neg (hhistory.not.mpr hup.2.2)]
      obtain ⟨b', hset, hholds⟩ := bufferSet_holds s.command.bytes s.command.len
        (h.history.length.symm ▸ h.history.limit) h.history.solid h.history.load
      rw [h.history.length] at hset hholds
      rw [hset]
      refine ⟨_, rfl, ⟨⟨?_, h.history.length.symm⟩, h.history⟩, fun _ => ?_⟩
      · rw [EditLine.text_recalled]
        exact hholds
      · refine ⟨fun hagree _ _ => ⟨fun _ _ => hagree hread, fun hd => ?_, fun _ n hn => ?_⟩,
          fun hkeeps _ => (hkeeps hread hup.1).1 hup.2.1 (hhistory.not.mpr hup.2.2)⟩
        · exact absurd (hup.2.1.symm.trans hd) (by decide)
        · exact absurd hup.2.1 (functionKey_ne hn).1
    have hup' : ¬ (ch = 0 ∧ sc.toUInt8 = SC_CURSOR_UP ∧ s.historyLen ≠ 0) := fun hboth =>
      hup ⟨hboth.1, hboth.2.1, hhistory.not.mp hboth.2.2⟩
    rw [if_neg hup', if_neg hup]
    by_cases hdown : ch = 0 ∧ sc.toUInt8 = SC_CURSOR_DOWN
    · rw [if_pos hdown, if_pos hdown, hempty]
      refine ⟨_, rfl, hcleared s.overflow s.reading, fun _ => ?_⟩
      refine ⟨fun hagree _ _ => ⟨fun hu => ?_, fun _ => hagree hread, fun _ n hn => ?_⟩,
        fun hkeeps _ => (hkeeps hread hdown.1).2.1 hdown.2⟩
      · exact absurd (hdown.2.symm.trans hu) (by decide)
      · exact absurd hdown.2 (functionKey_ne hn).2
    rw [if_neg hdown, if_neg hdown]
    obtain ⟨s', hkey, hrep, hflag⟩ := Reader.lineKey_rep h ch sc
    have hline : (¬ (sc &&& SCF_CTRL ≠ 0 ∧ (functionKey sc.toUInt8).isSome = true)) →
        Keeps s (.message (.keyDown ch sc) w) := fun hno _ h0 =>
      ⟨fun hu hl => absurd ⟨h0, hu, hl⟩ hup', fun hd => absurd ⟨h0, hd⟩ hdown,
        fun hc n hn => absurd ⟨hc, hn ▸ rfl⟩ hno⟩
    by_cases hch : ch = 0
    swap
    · rw [if_neg hch, if_neg fun hboth => hch hboth.1]
      exact ⟨s', hkey, hrep, fun hagree => iff_of_true (hflag hagree) (keeps_of_ne hch sc w)⟩
    rw [if_pos hch, complete]
    by_cases hctrl : sc &&& SCF_CTRL = 0
    · rw [if_pos hctrl, if_neg fun hboth => hboth.2.1 hctrl]
      exact ⟨s', hkey, hrep, fun hagree => iff_of_true (hflag hagree)
        (hline fun hboth => hboth.1 hctrl)⟩
    rw [if_neg hctrl]
    cases hfunction : functionKey sc.toUInt8 with
    | none =>
      rw [if_neg fun hboth => absurd hboth.2.2 (by simp)]
      exact ⟨s', hkey, hrep, fun hagree => iff_of_true (hflag hagree)
        (hline fun hboth => absurd (hfunction ▸ hboth.2) (by simp))⟩
    | some n =>
      obtain ⟨c'', hfill, hrep'⟩ := fill_rep h.line (w.ac.rest n)
      rw [if_pos ⟨hch, hctrl, rfl⟩]
      dsimp only
      rw [hfill]
      refine ⟨_, rfl, ⟨hrep', h.history⟩, fun hagree => ?_⟩
      have hfull : (typeWord r.line (w.ac.rest n)).2 =
          meetsFull s.command.len s.command.pos (w.ac.rest n) := by
        rw [typeWord_full _ (h.line.holds.length.symm ▸ h.line.holds.limit),
          h.line.holds.length, h.line.pos]
      have hflags : s.overflow = (r.refused || (typeWord r.line (w.ac.rest n)).2) ↔
          s.overflow = true ∨ meetsFull s.command.len s.command.pos (w.ac.rest n) = false := by
        rw [← hagree hread, hfull]
        generalize meetsFull s.command.len s.command.pos (w.ac.rest n) = full
        cases s.overflow <;> cases full <;> decide
      obtain ⟨hnu, hnd⟩ := functionKey_ne hfunction
      refine ⟨fun hafter _ _ => ⟨fun hu => absurd hu hnu, fun hd => absurd hd hnd,
        fun _ n' hn' => ?_⟩, fun hkeeps _ => ?_⟩
      · obtain rfl := Option.some.inj (hfunction.symm.trans hn')
        exact hflags.mp (hafter hread)
      · exact hflags.mpr ((hkeeps hread hch).2.2 hctrl n hfunction)

theorem Reader.input_rep (h : Stands s r) (i : Input) :
    ∃ s', s.input i = some ((r.input s i).1, s') ∧ Stands s' (r.input s i).2 ∧
      (Agree s r → (Agree s' (r.input s i).2 ↔ Keeps s i)) := by
  cases i with
  | message m w => exact Reader.handle_rep h m w
  | call garbage continuation =>
    obtain ⟨c', hempty, hrep⟩ := empty_rep ⟨garbage, 0, 0⟩
    have hcall : s.call garbage continuation = some { s with
        command := c', overflow := false, continuation, reading := true } := by
      unfold Command.empty at hempty
      unfold call
      cases hstore : store garbage 0 0 with
      | none => rw [hstore] at hempty; cases hempty
      | some bytes => rw [hstore] at hempty; obtain rfl := Option.some.inj hempty; rfl
    refine ⟨{ s with command := c', overflow := false, continuation, reading := true }, ?_,
      ⟨hrep, h.history⟩, fun _ => iff_of_true (fun _ => rfl) trivial⟩
    rw [input, hcall]
    rfl

/-! ## A whole run -/

theorem registered_stands : Stands registered ⟨EditLine.clear, [], false⟩ := by
  refine ⟨⟨⟨rfl, Nat.zero_le _, rfl, ?_⟩, rfl⟩, ⟨rfl, Nat.zero_le _, rfl, ?_⟩⟩ <;>
    exact fun x hx => absurd hx List.not_mem_nil

theorem run_concat (inputs : List Input) (i : Input) :
    run (inputs ++ [i]) = (run inputs).bind fun p => both p i := by
  simp [run, List.foldlM_append]

/-- **A run never leaves the buffers**, and they stand for the reference all along. -/
theorem run_rep (inputs : List Input) : ∃ s r, run inputs = some (s, r) ∧ Stands s r := by
  induction inputs using List.reverseRecOn with
  | nil => exact ⟨_, _, rfl, registered_stands⟩
  | append_singleton inputs i ih =>
    obtain ⟨s, r, hrun, hstands⟩ := ih
    obtain ⟨s', hinput, hstands', -⟩ := Reader.input_rep hstands i
    exact ⟨s', _, by rw [run_concat, hrun, Option.bind_some, both, hinput]; rfl, hstands'⟩

/-- The flag is right all along exactly when every input keeps it right. -/
theorem run_agree (inputs : List Input) :
    (∀ pre, pre <+: inputs → ∀ s r, run pre = some (s, r) → Agree s r) ↔
      ∀ pre i, pre ++ [i] <+: inputs → ∀ s r, run pre = some (s, r) → Keeps s i := by
  have hnext : ∀ pre i s r, run pre = some (s, r) → ∃ s', run (pre ++ [i]) =
      some (s', (r.input s i).2) ∧ (Agree s r → (Agree s' (r.input s i).2 ↔ Keeps s i)) := by
    intro pre i s r hrun
    obtain ⟨s₀, r₀, hrun₀, hstands⟩ := run_rep pre
    rw [hrun] at hrun₀
    obtain ⟨rfl, rfl⟩ := Prod.mk.inj (Option.some.inj hrun₀)
    obtain ⟨s', hinput, -, hflag⟩ := Reader.input_rep hstands i
    exact ⟨s', by rw [run_concat, hrun, Option.bind_some, both, hinput]; rfl, hflag⟩
  constructor
  · intro hall pre i hpre s r hrun
    obtain ⟨s', hrun', hflag⟩ := hnext pre i s r hrun
    have hagree := hall pre ((List.prefix_append pre [i]).trans hpre) s r hrun
    exact (hflag hagree).mp (hall _ hpre s' _ hrun')
  · intro hall pre
    -- by the length of the run: each input keeps the flag that the ones before it have kept
    induction pre using List.reverseRecOn with
    | nil =>
      intro _ s r hrun
      obtain ⟨rfl, rfl⟩ := Prod.mk.inj (Option.some.inj hrun)
      exact fun _ => rfl
    | append_singleton pre i ih =>
      intro hpre s' r' hrun'
      obtain ⟨s, r, hrun, -⟩ := run_rep pre
      obtain ⟨s'', hrun'', hflag⟩ := hnext pre i s r hrun
      rw [hrun'] at hrun''
      obtain ⟨rfl, rfl⟩ := Prod.mk.inj (Option.some.inj hrun'')
      have hagree := ih ((List.prefix_append pre [i]).trans hpre) s r hrun
      exact (hflag hagree).mpr (hall pre i hpre s r hrun)

/-! ## What is submitted -/

theorem handle_enter {ch : ℤ} {sc : UInt64} {w : Around} (hread : s.reading = true)
    (hch : ch = 13 ∨ ch = 10) : s.handle (.keyDown ch sc) w = s.enter w.shellOutput := by
  rw [Reader.handle, if_neg (by simp [hread])]
  exact if_pos hch

/-- Return discards the line exactly when the flag is set. -/
theorem enter_discards (h : Stands s r) (shellOutput : Bool) :
    (∃ s', s.enter shellOutput = some (.discarded, s')) ↔ s.overflow = true := by
  constructor
  · rintro ⟨s', hs⟩
    by_contra hover
    obtain ⟨s'', hs'', -⟩ := Reader.enter_rep h shellOutput
    rw [hs''] at hs
    have hevent := (Prod.mk.inj (Option.some.inj hs)).1
    unfold Reference.enter at hevent
    rw [if_neg hover] at hevent
    revert hevent
    dsimp only
    split
    · exact nofun
    split <;> exact nofun
  · intro hover
    exact ⟨_, by rw [Reader.enter, if_pos hover]⟩

/-- Only the text of the line is ever submitted. -/
theorem enter_submits {discards continuation shellOutput : Bool} {line : List UInt8} {who : Taker}
    (h : (r.enter discards continuation shellOutput).1 = .submitted line who) :
    line = r.line.text := by
  unfold Reference.enter at h
  revert h
  dsimp only
  split
  · exact nofun
  split
  · exact nofun
  have hline : (if continuation = true then r else { r with history := r.line.text }).line =
      r.line := by split <;> rfl
  rw [hline]
  split <;> exact fun heq => (Event.submitted.inj heq).1.symm

theorem input_submits {i : Input} {line : List UInt8} {who : Taker}
    (h : (r.input s i).1 = .submitted line who) : line = r.line.text := by
  cases i with
  | call garbage continuation => cases h
  | message m w =>
    unfold Reference.input Reference.handle at h
    revert h
    dsimp only
    split
    · exact nofun
    cases m with
    | other => exact nofun
    | keyUp ch sc =>
      dsimp only
      split
      · cases menuSource ch <;> exact nofun
      · exact nofun
    | keyDown ch sc =>
      dsimp only
      split
      · exact enter_submits
      split
      · split <;> exact nofun
      split
      · exact nofun
      split
      · exact nofun
      split <;> exact nofun

/-- In every run the buffer keeps within its bounds and stands for the reference line, a key that
is not taken changes nothing, and what is submitted is the reference text. **Return discards the
line exactly when a character was refused since the line was last emptied or replaced, in every
state of a run, if and only if the run never empties the line by Down or replaces it by the history
while the flag is set, and no completion finds the line full while it is not.** -/
theorem readLine2_iff (inputs : List Input) :
    (∃ s r, run inputs = some (s, r) ∧
      s.command.pos ≤ s.command.len ∧ s.command.len ≤ 255 ∧
      s.command.bytes s.command.len = 0 ∧
      window s.command.bytes s.command.len = r.line.before ++ r.line.after ∧
      s.command.pos = r.line.before.length ∧
      (∀ ch scan, ∃ c', commandKey s.command ch scan =
          some ((editKey r.line ch scan.toUInt8).1, c') ∧
        ((editKey r.line ch scan.toUInt8).1 ≠ 1 → c' = s.command)) ∧
      (∀ i line who s', s.input i = some (.submitted line who, s') →
        line = r.line.before ++ r.line.after)) ∧
    ((∀ pre, pre <+: inputs → ∀ s r, run pre = some (s, r) → s.reading = true →
        ∀ ch sc w, ch = 13 ∨ ch = 10 →
          ((∃ s', s.handle (.keyDown ch sc) w = some (.discarded, s')) ↔ r.refused = true)) ↔
      ∀ pre i, pre ++ [i] <+: inputs → ∀ s r, run pre = some (s, r) → Keeps s i) := by
  constructor
  · obtain ⟨s, r, hrun, hstands⟩ := run_rep inputs
    have hlen := hstands.line.len
    have hpos := hstands.line.pos
    refine ⟨s, r, hrun, by omega, hstands.line.holds.limit, hstands.line.holds.nul,
      hstands.line.holds.text, hpos, fun ch scan => ?_, fun i line who s' hs => ?_⟩
    · obtain ⟨c', hkey, -⟩ := commandKey_rep hstands.line ch scan
      exact ⟨c', hkey, commandKey_refused hkey⟩
    · obtain ⟨s'', hinput, -⟩ := Reader.input_rep hstands i
      rw [hs] at hinput
      exact input_submits (Prod.mk.inj (Option.some.inj hinput)).1.symm
  · rw [← run_agree]
    refine forall₅_congr fun pre _ s r hrun => ?_
    obtain ⟨s₀, r₀, hrun₀, hstands⟩ := run_rep pre
    rw [hrun] at hrun₀
    obtain ⟨rfl, rfl⟩ := Prod.mk.inj (Option.some.inj hrun₀)
    constructor
    · intro hall hread
      have hiff := hall hread 13 0 ⟨false, ⟨false, 0, []⟩, false⟩ (Or.inl rfl)
      rw [handle_enter hread (Or.inl rfl), enter_discards hstands] at hiff
      exact Bool.eq_iff_iff.mpr hiff
    · intro hagree hread ch sc w hch
      rw [handle_enter hread hch, enter_discards hstands, hagree hread]

/-- Nothing around the terminal answers. -/
def quiet : Around where
  paintActive := false
  ac := { on := false, partialLen := 0, fillins := [] }
  shellOutput := false

/-- A call that gets 256 characters, Down, and one character. -/
def emptiedByDown : List Input :=
  .call (fun _ => 0) false ::
    (List.replicate 256 (.message (.keyDown 97 0) quiet) ++
      [.message (.keyDown 0 0x50) quiet, .message (.keyDown 98 0) quiet])

/-- **A line that Down has emptied is discarded**, though each of its characters has found room. -/
theorem down_keeps_overflow :
    ∃ s r, run emptiedByDown = some (s, r) ∧ r.line.text = [98] ∧ r.refused = false ∧
      ∃ s', s.handle (.keyDown 13 0) quiet = some (.discarded, s') := by
  have hplay : (run emptiedByDown).any (fun p =>
      p.2.line.text = [98] && !p.2.refused && p.1.reading && p.1.overflow) = true := by
    decide +kernel
  obtain ⟨⟨s, r⟩, hrun, hflags⟩ := (Option.any_eq_true _ _).mp hplay
  simp only [Bool.and_eq_true, decide_eq_true_eq, Bool.not_eq_true'] at hflags
  obtain ⟨⟨⟨htext, hrefused⟩, hread⟩, hover⟩ := hflags
  refine ⟨s, r, hrun, htext, hrefused, { s with reading := false }, ?_⟩
  rw [handle_enter hread (Or.inl rfl)]
  exact if_pos hover

end ZealBringup.Terminal
