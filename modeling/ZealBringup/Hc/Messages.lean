import Mathlib.Data.List.Chain
import Mathlib.Tactic.Cases
import ZealBringup.Lib.Fifo

/-!
# The messages of a program

`hc_builtin_msgquepush` and `hc_builtin_messageget` of `kernel_stub.c`: scripted messages first, then
the keyboard or the UART, then the changes of the pointer.

* `hcBuiltinMsgquepush`, `hcBuiltinMessageget` — a push and a poll, with the place an answer is from.
* `mailboxRun` — the scripted messages of a list, by the masks of the polls.
* `scripted_fifo` — the ring answers as the list.
* `edges_iff` — every edge of a button is told exactly when no two samples that follow each other
  differ in both buttons.
-/

namespace ZealBringup.Hc

open Fifo

/-! ## The code -/

/-- `HC_MSG_QUE_MAX`. -/
abbrev hcMsgQueMax : ℕ := 16

/-- `mask & HC_MSG_BIT(t)`: the machine shifts by the low six bits of `t`. -/
def hcMsgBit (mask t : UInt64) : Bool := mask &&& (1 <<< t) != 0

/-- A message: what a call returns and what it stores. -/
structure HcMsg where
  type : UInt64
  a1 : UInt64
  a2 : UInt64
  deriving DecidableEq

/-- The mask lets a message through. -/
def HcMsg.admitted (mask : UInt64) (m : HcMsg) : Bool := hcMsgBit mask m.type

/-- `g_hc_msg_*`. -/
structure MsgState where
  que : Fin hcMsgQueMax → HcMsg
  head : Fin hcMsgQueMax
  tail : Fin hcMsgQueMax
  btnPrev : Bool
  rbtnPrev : Bool
  haveXy : Bool
  lastX : UInt32
  lastY : UInt32

def hcMsgQueReset (s : MsgState) : MsgState :=
  { s with head := 0, tail := 0, btnPrev := false, rbtnPrev := false, haveXy := false }

def hcBuiltinMsgquepush (s : MsgState) (m : HcMsg) : Bool × MsgState :=
  if s.tail + 1 = s.head then (false, s)
  else (true, { s with que := Function.update s.que s.tail m, tail := s.tail + 1 })

/-- What the devices show to a call; `keys` are the messages of the keyboard up to the first answer
that there is none. -/
structure MsgInput where
  keyboardReady : Bool
  keys : List HcMsg
  uart : Option UInt8
  pointerReady : Bool
  btns : UInt32
  x : UInt32
  y : UInt32

/-- The loop over the scripted messages. -/
def popScripted (s : MsgState) (mask : UInt64) : Option HcMsg × MsgState :=
  if s.head = s.tail then (none, s)
  else
    let m := s.que s.head
    let s' := { s with head := s.head + 1 }
    if m.admitted mask then (some m, s') else popScripted s' mask
termination_by (contents s.que s.head s.tail).length
decreasing_by
  have hne : s.head ≠ s.tail := by assumption
  rw [contents_pop hne]
  exact Nat.lt_succ_self _

/-- The keyboard, or the UART where there is none. -/
def keyMessage (i : MsgInput) (mask : UInt64) : Option HcMsg :=
  if (hcMsgBit mask 2 || hcMsgBit mask 3) && i.keyboardReady then
    i.keys.find? (HcMsg.admitted mask)
  else if hcMsgBit mask 2 && !i.keyboardReady then
    i.uart.map fun c => ⟨2, (if c = 13 then 10 else c).toUInt64, 0⟩
  else none

/-- The buttons of the pointer. -/
structure Buttons where
  left : Bool
  right : Bool
  deriving DecidableEq

def MsgInput.buttons (i : MsgInput) : Buttons := ⟨i.btns &&& 1 != 0, i.btns &&& 2 != 0⟩

/-- The changes of the pointer. -/
def pointerMessage (s : MsgState) (i : MsgInput) (mask : UInt64) : Option HcMsg × MsgState :=
  let btn := i.buttons.left
  let rbtn := i.buttons.right
  let prev := s.btnPrev
  let rprev := s.rbtnPrev
  let s := { s with btnPrev := btn, rbtnPrev := rbtn }
  let here (t : UInt64) : HcMsg := ⟨t, i.x.toUInt64, i.y.toUInt64⟩
  if hcMsgBit mask 5 && btn && !prev then (some (here 5), s)
  else if hcMsgBit mask 6 && !btn && prev then (some (here 6), s)
  else if hcMsgBit mask 7 && rbtn && !rprev then (some (here 7), s)
  else if hcMsgBit mask 8 && !rbtn && rprev then (some (here 8), s)
  else if hcMsgBit mask 4 && s.haveXy && (i.x != s.lastX || i.y != s.lastY) then
    (some (here 4), { s with lastX := i.x, lastY := i.y })
  else (none, { s with lastX := i.x, lastY := i.y, haveXy := true })

/-- Where an answer is from. -/
inductive MsgAnswer where
  | pushed (ok : Bool)
  | scripted (m : HcMsg)
  | key (m : HcMsg)
  | pointer (m : HcMsg)
  | null
  deriving DecidableEq

def hcBuiltinMessageget (s : MsgState) (i : MsgInput) (mask : UInt64) : MsgAnswer × MsgState :=
  match popScripted s mask with
  | (some m, s) => (.scripted m, s)
  | (none, s) =>
    match keyMessage i mask with
    | some m => (.key m, s)
    | none =>
      if i.pointerReady then
        match pointerMessage s i mask with
        | (some m, s) => (.pointer m, s)
        | (none, s) => (.null, s)
      else (.null, s)

/-- A call of a program. -/
inductive MsgCall where
  | push (m : HcMsg)
  | get (i : MsgInput) (mask : UInt64)

def msgStep (s : MsgState) : MsgCall → MsgAnswer × MsgState
  | .push m => (hcBuiltinMsgquepush s m).map .pushed id
  | .get i mask => hcBuiltinMessageget s i mask

/-- The answers to some calls. -/
def msgRun (s : MsgState) : List MsgCall → List MsgAnswer
  | [] => []
  | c :: cs => (msgStep s c).1 :: msgRun (msgStep s c).2 cs

/-- The state after some calls. -/
def msgEnd (s : MsgState) : List MsgCall → MsgState
  | [] => s
  | c :: cs => msgEnd (msgStep s c).2 cs

/-! ## What it is for -/

/-- The scripted messages that wait. -/
def MsgState.waiting (s : MsgState) : List HcMsg := contents s.que s.head s.tail

/-- The buttons of the last sample. -/
def MsgState.buttons (s : MsgState) : Buttons := ⟨s.btnPrev, s.rbtnPrev⟩

/-- A call looks at the pointer: nothing comes before it. -/
def Samples (s : MsgState) (i : MsgInput) (mask : UInt64) : Prop :=
  (∀ m ∈ s.waiting, m.admitted mask = false) ∧ keyMessage i mask = none ∧ i.pointerReady

instance (s : MsgState) (i : MsgInput) (mask : UInt64) : Decidable (Samples s i mask) :=
  inferInstanceAs (Decidable (_ ∧ _ ∧ _))

/-- The states of the buttons that the calls look at. -/
def msgSamples (s : MsgState) : List MsgCall → List Buttons
  | [] => []
  | c :: cs =>
    (match c with
      | .push _ => []
      | .get i mask => if Samples s i mask then [i.buttons] else []) ++
      msgSamples (msgStep s c).2 cs

/-- The messages that a change of the buttons asks for. -/
def edgesBetween (a b : Buttons) : List UInt64 :=
  (if a.left = b.left then [] else [if b.left then 5 else 6]) ++
    (if a.right = b.right then [] else [if b.right then 7 else 8])

/-- The messages that a sequence of samples asks for, sample by sample. -/
def edges (a : Buttons) : List Buttons → List (List UInt64)
  | [] => []
  | b :: bs => edgesBetween a b :: edges b bs

/-- The edge that an answer tells. -/
def MsgAnswer.edge : MsgAnswer → Option UInt64
  | .pointer m => if m.type = 4 then none else some m.type
  | _ => none

/-- The scripted message of an answer. -/
def MsgAnswer.script : MsgAnswer → Option HcMsg
  | .scripted m => some m
  | _ => none

/-- The edges of the samples are told, each once and in their order. -/
def EdgesTold (s : MsgState) (cs : List MsgCall) : Prop :=
  Delivers (edges s.buttons (msgSamples s cs)) ((msgRun s cs).filterMap MsgAnswer.edge)

/-- Two samples that do not differ in both buttons. -/
def OneButton (a b : Buttons) : Prop := a.left = b.left ∨ a.right = b.right

instance (a b : Buttons) : Decidable (OneButton a b) := inferInstanceAs (Decidable (_ ∨ _))

/-- The masks let every message of the mouse through. -/
def MouseMasks (cs : List MsgCall) : Prop :=
  ∀ i mask, MsgCall.get i mask ∈ cs → ∀ t ∈ [4, 5, 6, 7, 8], hcMsgBit mask t

/-- The messages that a poll takes from a list: those outside the mask and the first inside it. -/
def polled (mask : UInt64) : List HcMsg → List HcMsg
  | [] => []
  | m :: q => if m.admitted mask then [m] else m :: polled mask q

/-- The messages that the calls take from a list, each with the mask of its poll, and those left. -/
def mailboxRun (q : List HcMsg) : List MsgCall → List (HcMsg × UInt64) × List HcMsg
  | [] => ([], q)
  | .push m :: cs => mailboxRun (if q.length + 1 < hcMsgQueMax then q ++ [m] else q) cs
  | .get _ mask :: cs =>
    let taken := polled mask q
    let (rest, left) := mailboxRun (q.drop taken.length) cs
    (taken.map (·, mask) ++ rest, left)

/-- The pushes that a run accepts. -/
def accepted : List MsgCall → List MsgAnswer → List HcMsg
  | .push m :: cs, .pushed true :: as => m :: accepted cs as
  | _ :: cs, _ :: as => accepted cs as
  | _, _ => []

/-! ## The ring is the list -/

variable {s : MsgState} {i : MsgInput} {mask : UInt64} {m : HcMsg} {cs : List MsgCall}

theorem hcBuiltinMsgquepush_waiting (s : MsgState) (m : HcMsg) :
    (hcBuiltinMsgquepush s m).2.waiting =
        (if s.waiting.length + 1 < hcMsgQueMax then s.waiting ++ [m] else s.waiting) ∧
      (hcBuiltinMsgquepush s m).1 = decide (s.waiting.length + 1 < hcMsgQueMax) := by
  unfold hcBuiltinMsgquepush MsgState.waiting
  have hroom : s.tail + 1 ≠ s.head ↔ (contents s.que s.head s.tail).length + 1 < hcMsgQueMax :=
    length_succ_lt_iff
  by_cases hfull : s.tail + 1 = s.head
  · have hno : ¬(contents s.que s.head s.tail).length + 1 < hcMsgQueMax := by
      rw [← hroom]
      exact not_not_intro hfull
    rw [if_pos hfull, if_neg hno]
    exact ⟨rfl, (decide_eq_false hno).symm⟩
  · have hyes : (contents s.que s.head s.tail).length + 1 < hcMsgQueMax := hroom.mp hfull
    rw [if_neg hfull, if_pos hyes]
    exact ⟨contents_push m hfull, (decide_eq_true hyes).symm⟩

/-- **A poll takes the messages that the list gives up.** -/
theorem popScripted_spec (s : MsgState) (mask : UInt64) :
    (popScripted s mask).1 = s.waiting.find? (HcMsg.admitted mask) ∧
      (popScripted s mask).2.waiting = s.waiting.drop (polled mask s.waiting).length ∧
      (popScripted s mask).2.buttons = s.buttons := by
  induction s using popScripted.induct mask with
  | case1 s hempty =>
    have hnil : s.waiting = [] := contents_eq_nil_iff.mpr hempty
    rw [popScripted, if_pos hempty]
    dsimp only
    rw [hnil]
    exact ⟨rfl, rfl, rfl⟩
  | case2 s hne m hbit =>
    let s' := { s with head := s.head + 1 }
    have hcons : s.waiting = m :: s'.waiting := contents_pop hne
    have hpop : popScripted s mask = (some m, s') := by rw [popScripted, if_neg hne, if_pos hbit]
    rw [hpop, hcons, List.find?_cons_of_pos hbit, polled, if_pos hbit]
    exact ⟨rfl, rfl, rfl⟩
  | case3 s hne m s' hbit ih =>
    have hcons : s.waiting = m :: s'.waiting := contents_pop hne
    have hpop : popScripted s mask = popScripted s' mask := by
      rw [popScripted, if_neg hne, if_neg hbit]
    rw [hpop, hcons, List.find?_cons_of_neg hbit, polled, if_neg hbit]
    exact ih

/-- What a poll takes is what it drops and, last, what it answers. -/
theorem polled_filter (mask : UInt64) (q : List HcMsg) :
    (polled mask q).filter (HcMsg.admitted mask) =
      (q.find? (HcMsg.admitted mask)).toList := by
  induction q with
  | nil => rfl
  | cons m q ih =>
    by_cases hbit : m.admitted mask
    · rw [polled, if_pos hbit, List.find?_cons_of_pos hbit, List.filter_cons_of_pos hbit]
      rfl
    · rw [polled, if_neg hbit, List.find?_cons_of_neg hbit, List.filter_cons_of_neg hbit, ih]

theorem polled_append_drop (mask : UInt64) (q : List HcMsg) :
    polled mask q ++ q.drop (polled mask q).length = q := by
  induction q with
  | nil => rfl
  | cons m q ih =>
    by_cases hbit : m.admitted mask
    · rw [polled, if_pos hbit]
      rfl
    · rw [polled, if_neg hbit, List.length_cons, List.drop_succ_cons, List.cons_append, ih]

theorem pointerMessage_waiting (s : MsgState) (i : MsgInput) (mask : UInt64) :
    (pointerMessage s i mask).2.waiting = s.waiting ∧
      (pointerMessage s i mask).2.buttons = i.buttons := by
  unfold pointerMessage
  dsimp only
  split_ifs <;> exact ⟨rfl, rfl⟩

/-- **What a poll leaves.** -/
theorem hcBuiltinMessageget_waiting (s : MsgState) (i : MsgInput) (mask : UInt64) :
    (hcBuiltinMessageget s i mask).2.waiting = s.waiting.drop (polled mask s.waiting).length ∧
      (hcBuiltinMessageget s i mask).1.script = s.waiting.find? (HcMsg.admitted mask) := by
  obtain ⟨hfind, hwait, _⟩ := popScripted_spec s mask
  unfold hcBuiltinMessageget
  rcases hpop : popScripted s mask with ⟨_ | m, s'⟩
  · rw [hpop] at hfind hwait
    dsimp only at hfind hwait ⊢
    rw [← hfind, ← hwait]
    rcases keyMessage i mask with _ | m
    · have hp := (pointerMessage_waiting s' i mask).1
      dsimp only
      split_ifs
      · rcases hq : pointerMessage s' i mask with ⟨_ | m, s''⟩
        all_goals
          rw [hq] at hp
          exact ⟨hp, rfl⟩
      · exact ⟨rfl, rfl⟩
    · exact ⟨rfl, rfl⟩
  · rw [hpop] at hfind hwait
    exact ⟨hwait, hfind⟩

/-- **A poll that looks at the pointer.** -/
theorem hcBuiltinMessageget_samples (h : Samples s i mask) :
    (hcBuiltinMessageget s i mask).2.buttons = i.buttons ∧
      ∃ s', s'.buttons = s.buttons ∧ (hcBuiltinMessageget s i mask).1.edge =
        ((pointerMessage s' i mask).1.bind fun m => (MsgAnswer.pointer m).edge) := by
  obtain ⟨hout, hkey, hready⟩ := h
  obtain ⟨hfind, _, hbuttons⟩ := popScripted_spec s mask
  have hnone : s.waiting.find? (HcMsg.admitted mask) = none := by
    rw [List.find?_eq_none]
    intro m hm
    rw [hout m hm]
    exact Bool.false_ne_true
  unfold hcBuiltinMessageget
  rcases hpop : popScripted s mask with ⟨o, s'⟩
  rw [hpop] at hfind hbuttons
  obtain rfl : o = none := hfind.trans hnone
  dsimp only
  rw [hkey]
  dsimp only
  rw [if_pos hready]
  have hp := (pointerMessage_waiting s' i mask).2
  rcases hq : pointerMessage s' i mask with ⟨_ | m, s''⟩
  all_goals
    rw [hq] at hp
    refine ⟨hp, s', hbuttons, ?_⟩
    rw [hq]
    rfl

/-- **A poll that does not.** -/
theorem hcBuiltinMessageget_no_sample (h : ¬Samples s i mask) :
    (hcBuiltinMessageget s i mask).2.buttons = s.buttons ∧
      (hcBuiltinMessageget s i mask).1.edge = none := by
  obtain ⟨hfind, _, hbuttons⟩ := popScripted_spec s mask
  unfold hcBuiltinMessageget
  rcases hpop : popScripted s mask with ⟨_ | m, s'⟩
  · rw [hpop] at hfind hbuttons
    dsimp only at hfind hbuttons ⊢
    have hout : ∀ m ∈ s.waiting, m.admitted mask = false := by
      intro m hm
      exact Bool.eq_false_of_not_eq_true (List.find?_eq_none.mp hfind.symm m hm)
    rcases hkey : keyMessage i mask with _ | m
    · have hnot : ¬i.pointerReady := fun hready => h ⟨hout, hkey, hready⟩
      dsimp only
      rw [if_neg hnot]
      exact ⟨hbuttons, rfl⟩
    · exact ⟨hbuttons, rfl⟩
  · rw [hpop] at hbuttons
    exact ⟨hbuttons, rfl⟩

/-! ## The scripted messages -/

/-- The scripted messages of a run: those that a mask lets through, from all that came, in order. -/
def ScriptedFifo (s : MsgState) (cs : List MsgCall) : Prop :=
  let (taken, left) := mailboxRun s.waiting cs
  (msgRun s cs).filterMap MsgAnswer.script =
      (taken.filter fun p => p.1.admitted p.2).map Prod.fst ∧
    taken.map Prod.fst ++ left = s.waiting ++ accepted cs (msgRun s cs)

theorem scripted_fifo (s : MsgState) (cs : List MsgCall) : ScriptedFifo s cs := by
  unfold ScriptedFifo
  induction cs generalizing s with
  | nil => simp [mailboxRun, msgRun, accepted]
  | cons c cs ih =>
    cases c with
    | push m =>
      obtain ⟨hwait, hok⟩ := hcBuiltinMsgquepush_waiting s m
      have ih := ih (hcBuiltinMsgquepush s m).2
      rw [hwait] at ih
      have hrun : msgRun s (.push m :: cs) = .pushed (hcBuiltinMsgquepush s m).1 ::
          msgRun (hcBuiltinMsgquepush s m).2 cs := rfl
      rw [hrun, hok, mailboxRun]
      refine ⟨ih.1, ih.2.trans ?_⟩
      by_cases hroom : s.waiting.length + 1 < hcMsgQueMax
      · rw [if_pos hroom, decide_eq_true hroom, accepted, List.append_assoc]
        rfl
      · rw [if_neg hroom, decide_eq_false hroom]
        rfl
    | get i mask =>
      obtain ⟨hwait, hscript⟩ := hcBuiltinMessageget_waiting s i mask
      have ih := ih (hcBuiltinMessageget s i mask).2
      rw [hwait] at ih
      have hrun : msgRun s (.get i mask :: cs) = (hcBuiltinMessageget s i mask).1 ::
          msgRun (hcBuiltinMessageget s i mask).2 cs := rfl
      have htaken : (((polled mask s.waiting).map (·, mask)).filter fun p => p.1.admitted p.2).map
          Prod.fst = (s.waiting.find? (HcMsg.admitted mask)).toList := by
        rw [← polled_filter, List.filter_map, List.map_map]
        exact List.map_id _
      have hall := polled_append_drop mask s.waiting
      rw [hrun, mailboxRun]
      dsimp only
      constructor
      · rw [List.filter_append, List.map_append, htaken, ← ih.1, ← hscript, List.filterMap_cons]
        cases (hcBuiltinMessageget s i mask).1.script <;> rfl
      · have hkeep : accepted (.get i mask :: cs) ((hcBuiltinMessageget s i mask).1 ::
            msgRun (hcBuiltinMessageget s i mask).2 cs) =
            accepted cs (msgRun (hcBuiltinMessageget s i mask).2 cs) := rfl
        rw [hkeep, List.map_append, List.append_assoc, ih.2, ← List.append_assoc, List.map_map]
        congr 1
        exact (congrArg (· ++ _) (List.map_id _)).trans hall

/-! ## The edges -/

/-- **A sample tells the first edge that it asks for.** -/
theorem pointerMessage_edge (s : MsgState) (i : MsgInput)
    (hmask : ∀ t ∈ [4, 5, 6, 7, 8], hcMsgBit mask t) :
    ((pointerMessage s i mask).1.bind fun m => (MsgAnswer.pointer m).edge) =
      (edgesBetween s.buttons i.buttons).head? := by
  have h4 : hcMsgBit mask 4 = true := hmask 4 (by simp)
  have h5 : hcMsgBit mask 5 = true := hmask 5 (by simp)
  have h6 : hcMsgBit mask 6 = true := hmask 6 (by simp)
  have h7 : hcMsgBit mask 7 = true := hmask 7 (by simp)
  have h8 : hcMsgBit mask 8 = true := hmask 8 (by simp)
  unfold pointerMessage edgesBetween MsgState.buttons
  dsimp only
  rw [h4, h5, h6, h7, h8]
  cases i.buttons.left <;> cases s.btnPrev <;> cases i.buttons.right <;> cases s.rbtnPrev <;>
    simp [MsgAnswer.edge] <;> split_ifs <;> simp

theorem MouseMasks.tail {c : MsgCall} (h : MouseMasks (c :: cs)) : MouseMasks cs :=
  fun i mask hmem => h i mask (List.mem_cons_of_mem c hmem)

/-- **A run tells the first edge of every sample.** -/
theorem msgRun_edges (s : MsgState) (cs : List MsgCall) (h : MouseMasks cs) :
    (msgRun s cs).filterMap MsgAnswer.edge =
      (edges s.buttons (msgSamples s cs)).flatMap (List.take 1) := by
  induction cs generalizing s with
  | nil => rfl
  | cons c cs ih =>
    have ih := ih (msgStep s c).2 h.tail
    cases c with
    | push m =>
      have hbuttons : (msgStep s (.push m)).2.buttons = s.buttons := by
        unfold msgStep hcBuiltinMsgquepush
        split_ifs <;> rfl
      rw [hbuttons] at ih
      exact ih
    | get i mask =>
      have hmask := h i mask List.mem_cons_self
      rw [msgRun, msgSamples, List.filterMap_cons]
      by_cases hs : Samples s i mask
      · obtain ⟨hbuttons, s', hs', hedge⟩ := hcBuiltinMessageget_samples hs
        rw [pointerMessage_edge s' i hmask, hs'] at hedge
        have hstep : (msgStep s (.get i mask)).1.edge = _ := hedge
        have hnext : (msgStep s (.get i mask)).2.buttons = i.buttons := hbuttons
        rw [hnext] at ih
        rw [hstep, if_pos hs, List.singleton_append, edges, List.flatMap_cons, ← ih]
        cases edgesBetween s.buttons i.buttons <;> rfl
      · obtain ⟨hbuttons, hedge⟩ := hcBuiltinMessageget_no_sample hs
        have hstep : (msgStep s (.get i mask)).1.edge = none := hedge
        have hnext : (msgStep s (.get i mask)).2.buttons = s.buttons := hbuttons
        rw [hnext] at ih
        rw [hstep, if_neg hs, List.nil_append]
        exact ih

/-- No sample asks for two edges exactly when no two samples differ in both buttons. -/
theorem forall_edges_iff (a : Buttons) (bs : List Buttons) :
    (∀ c ∈ edges a bs, c.length ≤ 1) ↔ (a :: bs).IsChain OneButton := by
  induction bs generalizing a with
  | nil => simp [edges]
  | cons b bs ih =>
    rw [edges, List.forall_mem_cons, List.isChain_cons_cons, ih]
    have hone : (edgesBetween a b).length ≤ 1 ↔ OneButton a b := by
      unfold edgesBetween OneButton
      by_cases hl : a.left = b.left <;> by_cases hr : a.right = b.right <;> simp [hl, hr]
    rw [hone]

/-- **Every edge is told exactly when no two samples that follow each other differ in both
buttons.** -/
theorem edgesTold_iff_chain (s : MsgState) (h : MouseMasks cs) :
    EdgesTold s cs ↔ (s.buttons :: msgSamples s cs).IsChain OneButton := by
  rw [EdgesTold, msgRun_edges s cs h, delivers_take_one_iff, forall_edges_iff]

/-! ## Calls with an unchanged pointer -/

theorem msgSamples_append (s : MsgState) (cs ds : List MsgCall) :
    msgSamples s (cs ++ ds) = msgSamples s cs ++ msgSamples (msgEnd s cs) ds := by
  induction cs generalizing s with
  | nil => rfl
  | cons c cs ih =>
    cases c <;> rw [List.cons_append, msgSamples, ih, msgSamples, msgEnd, List.append_assoc]

/-- Polls with the pointer of the last sample look at that state and no other. -/
theorem msgSamples_replicate (s : MsgState) (k : ℕ) (h : i.buttons = s.buttons) :
    ∀ b ∈ msgSamples s (List.replicate k (.get i mask)), b = s.buttons := by
  induction k generalizing s with
  | zero => simp [msgSamples]
  | succ k ih =>
    rw [List.replicate_succ, msgSamples]
    by_cases hs : Samples s i mask
    · have hnext : (msgStep s (.get i mask)).2.buttons = i.buttons :=
        (hcBuiltinMessageget_samples hs).1
      have ih := ih _ hnext.symm
      rw [if_pos hs, List.singleton_append, List.forall_mem_cons]
      rw [hnext, h] at ih
      exact ⟨h, ih⟩
    · have hnext : (msgStep s (.get i mask)).2.buttons = s.buttons :=
        (hcBuiltinMessageget_no_sample hs).1
      have ih := ih _ (h.trans hnext.symm)
      rw [if_neg hs, List.nil_append]
      rw [hnext] at ih
      exact ih

/-- The state of the buttons is the last sample. -/
theorem msgEnd_buttons (s : MsgState) (cs : List MsgCall) :
    (s.buttons :: msgSamples s cs).getLast? = some (msgEnd s cs).buttons := by
  induction cs generalizing s with
  | nil => rfl
  | cons c cs ih =>
    have ih := ih (msgStep s c).2
    cases c with
    | push m =>
      have hbuttons : (msgStep s (.push m)).2.buttons = s.buttons := by
        unfold msgStep hcBuiltinMsgquepush
        split_ifs <;> rfl
      rw [hbuttons] at ih
      exact ih
    | get i mask =>
      rw [msgSamples]
      by_cases hs : Samples s i mask
      · have hnext : (msgStep s (.get i mask)).2.buttons = i.buttons :=
          (hcBuiltinMessageget_samples hs).1
        rw [hnext] at ih
        rw [if_pos hs, List.singleton_append, List.getLast?_cons_cons]
        exact ih
      · have hnext : (msgStep s (.get i mask)).2.buttons = s.buttons :=
          (hcBuiltinMessageget_no_sample hs).1
        rw [hnext] at ih
        rw [if_neg hs, List.nil_append]
        exact ih

theorem isChain_const {b : Buttons} {bs : List Buttons} (h : ∀ c ∈ bs, c = b) :
    bs.IsChain OneButton := by
  rw [List.eq_replicate_of_mem h]
  exact List.isChain_replicate_of_rel _ (Or.inl rfl)

/-- Polls with an unchanged pointer add no change. -/
theorem chain_settled (s : MsgState) (cs : List MsgCall) (k : ℕ)
    (h : i.buttons = (msgEnd s cs).buttons) :
    (s.buttons :: msgSamples s (cs ++ List.replicate k (.get i mask))).IsChain OneButton ↔
      (s.buttons :: msgSamples s cs).IsChain OneButton := by
  have hconst : ∀ b ∈ msgSamples (msgEnd s cs) (List.replicate k (.get i mask)), b = _ :=
    msgSamples_replicate (msgEnd s cs) k h
  rw [msgSamples_append, ← List.cons_append, List.isChain_append, and_iff_left]
  refine ⟨isChain_const hconst, ?_⟩
  intro a ha b hb
  rw [msgEnd_buttons, Option.mem_some_iff] at ha
  rw [hconst b (List.mem_of_mem_head? hb), ha]
  exact Or.inl rfl

theorem MouseMasks.settled {k : ℕ} (h : MouseMasks (cs ++ [.get i mask])) :
    MouseMasks (cs ++ List.replicate k (.get i mask)) := by
  intro j mask' hmem
  rw [List.mem_append, List.mem_replicate] at hmem
  apply h j mask'
  rw [List.mem_append, List.mem_singleton]
  exact hmem.imp_right And.right

/-- **Every change of a button is told once, in the order of the samples, exactly when no two samples
that follow each other differ in both buttons; the scripted messages come in their order always.** -/
theorem messages_exact (s : MsgState) (cs : List MsgCall) (i : MsgInput) (mask : UInt64)
    (hmouse : MouseMasks (cs ++ [.get i mask])) (hsame : i.buttons = (msgEnd s cs).buttons) :
    ((∃ n, ∀ k ≥ n, EdgesTold s (cs ++ List.replicate k (.get i mask))) ↔
        (s.buttons :: msgSamples s cs).IsChain OneButton) ∧
      ∀ k, ScriptedFifo s (cs ++ List.replicate k (.get i mask)) := by
  refine ⟨?_, fun k => scripted_fifo s _⟩
  have heach : ∀ k, EdgesTold s (cs ++ List.replicate k (.get i mask)) ↔
      (s.buttons :: msgSamples s cs).IsChain OneButton := by
    intro k
    rw [edgesTold_iff_chain s hmouse.settled, chain_settled s cs k hsame]
  constructor
  · rintro ⟨n, hn⟩
    exact (heach n).mp (hn n le_rfl)
  · intro hchain
    exact ⟨0, fun k _ => (heach k).mpr hchain⟩

/-- The state of a start. -/
def msgStart : MsgState :=
  hcMsgQueReset ⟨fun _ => ⟨0, 0, 0⟩, 0, 0, false, false, false, 0, 0⟩

/-- A pointer with no keyboard beside it. -/
def pointerAt (btns : UInt32) : MsgInput := ⟨true, [], none, true, btns, 10, 20⟩

theorem mouseMask : ∀ t ∈ [4, 5, 6, 7, 8], hcMsgBit 0x1F0 t := by
  simp only [List.forall_mem_cons]
  exact ⟨by decide, by decide, by decide, by decide, by decide, fun t ht => nomatch ht⟩

/-- A click and a scripted message. -/
theorem messages_exact_click :
    ∃ n, ∀ k ≥ n, EdgesTold msgStart ([.push ⟨4, 1, 2⟩, .get (pointerAt 1) 0x1F0,
      .get (pointerAt 1) 0x1F0, .get (pointerAt 0) 0x1F0] ++
        List.replicate k (.get (pointerAt 0) 0x1F0)) :=
  (messages_exact msgStart _ (pointerAt 0) 0x1F0
    (by
      intro i mask hmem
      simp only [List.mem_append, List.mem_cons, List.not_mem_nil, reduceCtorEq, MsgCall.get.injEq,
        false_or, or_false] at hmem
      obtain rfl : mask = 0x1F0 := by tauto
      exact mouseMask)
    (by decide +kernel)).1.mpr (by decide +kernel)

/-- Both buttons pressed between two samples: the right one is never told. -/
theorem both_pressed_lost :
    ¬∃ n, ∀ k ≥ n, EdgesTold msgStart ([.get (pointerAt 0) 0x1F0, .get (pointerAt 3) 0x1F0] ++
      List.replicate k (.get (pointerAt 3) 0x1F0)) := by
  rintro ⟨n, hn⟩
  have hmouse : MouseMasks ([.get (pointerAt 0) 0x1F0, .get (pointerAt 3) 0x1F0] ++
      List.replicate n (.get (pointerAt 3) 0x1F0)) := by
    intro i mask hmem
    simp only [List.mem_append, List.mem_cons, List.not_mem_nil, List.mem_replicate,
      MsgCall.get.injEq, or_false] at hmem
    obtain rfl : mask = 0x1F0 := by tauto
    exact mouseMask
  have hchain := (edgesTold_iff_chain msgStart hmouse).mp (hn n le_rfl)
  rw [chain_settled msgStart _ n (by decide +kernel)] at hchain
  revert hchain
  decide +kernel

end ZealBringup.Hc
