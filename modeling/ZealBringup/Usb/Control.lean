import Mathlib
import ZealBringup.Usb.Events

/-!
# Control transfers

`usb_control` of `usb_xhci.h` and what `usb_events` does to the control endpoint, beside a controller
that completes the TRBs of the ring in any order, some of them after their call has given up.

* `usbControlEvent`, `usbControlBegin`, `usbControlCheck` — an event of the control endpoint, the
  TRBs that a call queues, and the look at the end of a round.
* `CtlSys`, `ctlStep`, `ctlRun` — the calls and the completions, step by step.
* `CtlSys.Right` — a length is that of the own data stage after the own status stage, and a failure
  is an own one.
* `ctlRun_right` — every run without stale completions in a later call is right.
* `stale_failure` — a run with one is not.
-/

namespace ZealBringup.Usb

/-! ## The driver -/

/-- `usb_success`. -/
def usbSuccess (code : ℕ) : Bool := code = 1 || code = 13

/-- The control endpoint of a `struct usb_dev`; `buffer` is the bus address of its buffer. -/
structure UsbControl where
  slot : ℕ
  buffer : ℕ
  ring : UsbRing
  controlDone : Bool
  controlCode : ℕ
  controlActual : ℕ
  controlData : ℕ
  controlPending : ℕ
  failed : ℕ

/-- A short data stage takes its residue from the length. -/
def controlShort (d : UsbControl) (parameter code residue : ℕ) : UsbControl :=
  if parameter = d.controlData ∧ code = 13 then
    if residue > d.controlActual then { d with controlCode := 31, controlDone := true }
    else { d with controlActual := d.controlActual - residue }
  else d

/-- The status stage, or any failure, ends the transfer. -/
def controlEnd (d : UsbControl) (parameter code : ℕ) : UsbControl :=
  if parameter = d.controlPending ∨ usbSuccess code = false then
    { d with controlCode := code, controlDone := true }
  else d

/-- What a transfer event does to the control endpoint of a device. -/
def usbControlEvent (e : UsbTrb) (d : UsbControl) : UsbControl :=
  let code := e.status >>> 24
  if e.control >>> 24 ≠ d.slot ∨ (e.control >>> 16) % 32 ≠ 1 then d
  else controlEnd (controlShort d e.parameter code (e.status % 2 ^ 24)) e.parameter code

/-- The first part of `usb_control`: the TRBs of the setup, data and status stages are put, and their
addresses returned. -/
def usbControlBegin (d : UsbControl) (rt request value index length : ℕ) :
    UsbControl × ℕ × Option ℕ × ℕ :=
  let setup := rt ||| request <<< 8 ||| value <<< 16 ||| index <<< 32 ||| length <<< 48
  let toHost := rt &&& 128 ≠ 0
  let trt := if length ≠ 0 then if toHost then 3 else 2 else 0
  let (ring₁, _, setupAt) := usbRingPut d.ring setup 8 (usbTrb 2 ||| 1 <<< 6 ||| trt <<< 16)
  let (ring₂, dataAt) :=
    if length ≠ 0 then
      let (ring, _, address) := usbRingPut ring₁ d.buffer length
        (usbTrb 3 ||| 1 <<< 2 ||| if toHost then 1 <<< 16 else 0)
      (ring, some address)
    else (ring₁, none)
  let (ring₃, _, statusAt) := usbRingPut ring₂ 0 0
    (usbTrb 4 ||| 1 <<< 5 ||| if length = 0 ∨ ¬toHost then 1 <<< 16 else 0)
  ({ d with
      ring := ring₃, controlDone := false, controlActual := length
      controlData := dataAt.getD 0, controlPending := statusAt },
    setupAt, dataAt, statusAt)

/-- The look at the end of a round: what `usb_control` returns, `none` for -1. -/
def usbControlCheck (d : UsbControl) : Option (Option ℕ) :=
  if d.controlDone then some (if usbSuccess d.controlCode then some d.controlActual else none)
  else none

/-! ## The controller -/

/-- The stages of a control transfer. -/
inductive CtlStage where
  | setup
  | data
  | status
  deriving DecidableEq

/-- A TRB by the number of its call and its stage. -/
abbrev CtlId := ℕ × CtlStage

/-- A TRB on the ring. -/
structure CtlTrb where
  id : CtlId
  address : ℕ

/-- How the controller completes a TRB: the two fields of the status word. -/
structure Completion where
  code : Fin 256
  residue : Fin (2 ^ 24)
  deriving DecidableEq

/-- The transfer event of a completion. -/
def completionEvent (slot address : ℕ) (c : Completion) : UsbTrb :=
  ⟨address, c.code.val * 2 ^ 24 + c.residue.val, slot * 2 ^ 24 + (2 ^ 16 + 32 * 2 ^ 10)⟩

/-- A call that has returned. -/
structure CtlResult where
  call : ℕ
  length : ℕ
  result : Option ℕ
  timedOut : Bool
  deriving DecidableEq

/-- The device, the TRBs that are not completed, the running call with its length, the number of calls
so far, the completions in order, and the results. -/
structure CtlSys where
  dev : UsbControl
  running : Bool
  queued : List CtlTrb
  current : Option (ℕ × ℕ)
  calls : ℕ
  log : List (CtlId × Completion)
  results : List CtlResult

/-- What may happen next: a call begins, the controller completes the TRB `k` of those on the ring and
its event is handled, a round ends, the time of the call is over, or the controller stops. -/
inductive CtlAct where
  | call (rt request value index length : ℕ)
  | complete (k : ℕ) (c : Completion)
  | check
  | timeout
  | halt

def CtlSys.finish (s : CtlSys) (call length : ℕ) (result : Option ℕ) (timedOut : Bool) : CtlSys :=
  { s with current := none, results := s.results ++ [⟨call, length, result, timedOut⟩] }

/-- The TRBs of a call. -/
def callTrbs (call : ℕ) (setupAt : ℕ) (dataAt : Option ℕ) (statusAt : ℕ) : List CtlTrb :=
  ⟨(call, .setup), setupAt⟩ :: dataAt.toList.map (⟨(call, .data), ·⟩) ++ [⟨(call, .status), statusAt⟩]

def ctlStep (s : CtlSys) : CtlAct → CtlSys
  | .call rt request value index length =>
    if s.current ≠ none ∨ length > 4096 ∨ s.running = false then s
    else
      let (dev, setupAt, dataAt, statusAt) := usbControlBegin s.dev rt request value index length
      { s with
        dev := dev
        queued := s.queued ++ callTrbs s.calls setupAt dataAt statusAt
        current := some (s.calls, length)
        calls := s.calls + 1 }
  | .complete k c =>
    match s.queued[k]? with
    | none => s
    | some t =>
      if s.running = false then s
      else
        { s with
          dev := usbControlEvent (completionEvent s.dev.slot t.address c) s.dev
          queued := s.queued.eraseIdx k
          log := s.log ++ [(t.id, c)] }
  | .check =>
    match s.current, usbControlCheck s.dev with
    | some (call, length), some result => s.finish call length result false
    | _, _ => s
  | .timeout =>
    match s.current with
    | none => s
    | some (call, length) =>
      match usbControlCheck s.dev with
      | some result => s.finish call length result false
      | none => { s with dev := { s.dev with failed := 0x101 } }.finish call length none true
  | .halt => { s with running := false }

def ctlRun (s : CtlSys) (acts : List CtlAct) : CtlSys := acts.foldl ctlStep s

/-- A device after its ring was set up. -/
def ctlStart (slot buffer trbs : ℕ) : CtlSys :=
  ⟨⟨slot, buffer, ⟨trbs, 0, true⟩, false, 0, 0, 0, 0, 0⟩, true, [], none, 0, [], []⟩

/-! ## What it is for -/

/-- The residue of a completion; only a short one leaves any. -/
def Completion.left (c : Completion) : ℕ := if c.code.val = 13 then c.residue.val else 0

/-- The residue of the data stage of a call. -/
def residueOf (log : List (CtlId × Completion)) (call : ℕ) : ℕ :=
  ((log.filter fun p => p.1 = (call, .data)).map fun p => p.2.left).sum

/-- A length comes from the own status stage, and is that of the own data stage; a failure comes from
an own completion. -/
def CtlResult.Right (log : List (CtlId × Completion)) (r : CtlResult) : Prop :=
  match r.result with
  | some n => (∃ c, ((r.call, .status), c) ∈ log ∧ usbSuccess c.code.val = true) ∧
      n + residueOf log r.call = r.length
  | none => r.timedOut = true ∨
      ∃ stage c, ((r.call, stage), c) ∈ log ∧ usbSuccess c.code.val = false

def CtlSys.Right (s : CtlSys) : Prop := ∀ r ∈ s.results, r.Right s.log

/-- What a completion of the TRB may not be: one of an earlier call, in a later one, that failed, has
the address of the status stage, or is short at the address of the data stage; a data stage with more
residue than length; a short data stage of a call that has returned a length. -/
def CtlSys.FreshTrb (s : CtlSys) (c : Completion) (t : CtlTrb) : Prop :=
  (∀ p ∈ s.current,
    if t.id.1 = p.1 then t.id.2 = .data → c.left ≤ p.2
    else usbSuccess c.code.val = true ∧ t.address ≠ s.dev.controlPending ∧
      (t.address = s.dev.controlData → c.code.val ≠ 13)) ∧
  (t.id.2 = .data → c.left ≠ 0 → ∀ r ∈ s.results, r.call = t.id.1 → r.result = none)

instance (s : CtlSys) (c : Completion) (t : CtlTrb) : Decidable (s.FreshTrb c t) :=
  inferInstanceAs (Decidable (_ ∧ _))

def CtlSys.Fresh (s : CtlSys) : CtlAct → Prop
  | .complete k c => ∀ t ∈ s.queued[k]?, s.FreshTrb c t
  | _ => True

instance (s : CtlSys) : (act : CtlAct) → Decidable (s.Fresh act)
  | .complete k c => inferInstanceAs (Decidable (∀ t ∈ s.queued[k]?, s.FreshTrb c t))
  | .call .. => inferInstanceAs (Decidable True)
  | .check => inferInstanceAs (Decidable True)
  | .timeout => inferInstanceAs (Decidable True)
  | .halt => inferInstanceAs (Decidable True)

/-- A run whose completions are all fresh. -/
def RunFresh (s : CtlSys) : List CtlAct → Prop
  | [] => True
  | a :: acts => s.Fresh a ∧ RunFresh (ctlStep s a) acts

instance RunFresh.decide : (s : CtlSys) → (acts : List CtlAct) → Decidable (RunFresh s acts)
  | _, [] => inferInstanceAs (Decidable True)
  | s, a :: acts => @instDecidableAnd _ _ inferInstance (RunFresh.decide (ctlStep s a) acts)

/-! ## Addresses -/

theorem usbRingPut_spec (r : UsbRing) (parameter status control : ℕ) (h : r.enqueue < 63) :
    (usbRingPut r parameter status control).2.2 = trbAddress r.trbs r.enqueue ∧
      (usbRingPut r parameter status control).1.trbs = r.trbs ∧
      (usbRingPut r parameter status control).1.enqueue = (r.enqueue + 1) % 63 := by
  unfold usbRingPut
  dsimp only
  split_ifs with hlast
  · have hmod : (r.enqueue + 1) % 63 = 0 := by
      have heq : r.enqueue + 1 = 63 := hlast
      rw [heq]
    exact ⟨rfl, rfl, hmod.symm⟩
  · have hne : r.enqueue + 1 ≠ 63 := hlast
    have hlt : r.enqueue + 1 < 63 := by omega
    exact ⟨rfl, rfl, (Nat.mod_eq_of_lt hlt).symm⟩

/-- What a call leaves, and the addresses of its TRBs. -/
structure Begun (d d' : UsbControl) (length setupAt : ℕ) (dataAt : Option ℕ) (statusAt : ℕ) : Prop where
  enqueue : d'.ring.enqueue < 63
  trbs : d'.ring.trbs = d.ring.trbs
  done : d'.controlDone = false
  actual : d'.controlActual = length
  data : d'.controlData = dataAt.getD 0
  pending : d'.controlPending = statusAt
  setup_pos : 0 < setupAt
  status_pos : 0 < statusAt
  data_pos : ∀ a ∈ dataAt, 0 < a
  setup_ne_status : setupAt ≠ statusAt
  setup_ne_data : setupAt ≠ dataAt.getD 0
  status_ne_data : statusAt ≠ dataAt.getD 0

/-- **The TRBs of a call have addresses of their own.** -/
theorem usbControlBegin_spec (d : UsbControl) (rt request value index length : ℕ)
    (henqueue : d.ring.enqueue < 63) (htrbs : 0 < d.ring.trbs) :
    Begun d (usbControlBegin d rt request value index length).1 length
      (usbControlBegin d rt request value index length).2.1
      (usbControlBegin d rt request value index length).2.2.1
      (usbControlBegin d rt request value index length).2.2.2 := by
  unfold usbControlBegin
  dsimp only
  generalize hsetup : usbRingPut d.ring _ 8 _ = put₁
  obtain ⟨ring₁, stores₁, setupAt⟩ := put₁
  obtain ⟨haddr₁, htrbs₁, henq₁⟩ := usbRingPut_spec d.ring _ 8 _ henqueue
  rw [hsetup] at haddr₁ htrbs₁ henq₁
  dsimp only at haddr₁ htrbs₁ henq₁ ⊢
  have hlt₁ : ring₁.enqueue < 63 := by omega
  have hpos : ∀ k, 0 < trbAddress d.ring.trbs k := by
    intro k
    unfold trbAddress
    omega
  have hinj : ∀ j k, trbAddress d.ring.trbs j = trbAddress d.ring.trbs k → j = k := by
    intro j k h
    exact trbAddress_inj.mp h
  by_cases hlen : length = 0
  · subst hlen
    simp only [ne_eq, not_true_eq_false, if_false]
    generalize hstatus : usbRingPut ring₁ 0 0 _ = put₃
    obtain ⟨ring₃, stores₃, statusAt⟩ := put₃
    obtain ⟨haddr₃, htrbs₃, henq₃⟩ := usbRingPut_spec ring₁ 0 0 _ hlt₁
    rw [hstatus] at haddr₃ htrbs₃ henq₃
    dsimp only at haddr₃ htrbs₃ henq₃ ⊢
    rw [htrbs₁] at haddr₃ htrbs₃
    subst haddr₁ haddr₃
    have hlt₃ : ring₃.enqueue < 63 := by omega
    refine ⟨hlt₃, htrbs₃, rfl, rfl, rfl, rfl, hpos _, hpos _, by simp, ?_, Nat.ne_of_gt (hpos _),
      Nat.ne_of_gt (hpos _)⟩
    intro heq
    have hidx := hinj _ _ heq
    omega
  · simp only [ne_eq, hlen, not_false_eq_true, if_true]
    generalize hdata : usbRingPut ring₁ d.buffer length _ = put₂
    obtain ⟨ring₂, stores₂, dataAt⟩ := put₂
    obtain ⟨haddr₂, htrbs₂, henq₂⟩ := usbRingPut_spec ring₁ d.buffer length _ hlt₁
    rw [hdata] at haddr₂ htrbs₂ henq₂
    dsimp only at haddr₂ htrbs₂ henq₂ ⊢
    have hlt₂ : ring₂.enqueue < 63 := by omega
    generalize hstatus : usbRingPut ring₂ 0 0 _ = put₃
    obtain ⟨ring₃, stores₃, statusAt⟩ := put₃
    obtain ⟨haddr₃, htrbs₃, henq₃⟩ := usbRingPut_spec ring₂ 0 0 _ hlt₂
    rw [hstatus] at haddr₃ htrbs₃ henq₃
    dsimp only at haddr₃ htrbs₃ henq₃ ⊢
    rw [htrbs₁] at haddr₂ htrbs₂
    rw [htrbs₂] at haddr₃ htrbs₃
    subst haddr₁ haddr₂ haddr₃
    have hlt₃ : ring₃.enqueue < 63 := by omega
    refine ⟨hlt₃, htrbs₃, rfl, rfl, rfl, rfl, hpos _, hpos _, ?_, ?_, ?_, ?_⟩
    · intro a ha
      obtain rfl := Option.some.inj ha
      exact hpos _
    · intro heq
      have hidx := hinj _ _ heq
      omega
    · intro heq
      have hidx := hinj _ _ heq
      omega
    · intro heq
      have hidx := hinj _ _ heq
      omega

/-! ## An event -/

variable {d : UsbControl} {c : Completion} {a : ℕ} {s : CtlSys} {act : CtlAct} {acts : List CtlAct}

theorem eventControl (slot : ℕ) :
    trbType (slot * 2 ^ 24 + (2 ^ 16 + 32 * 2 ^ 10)) = 32 ∧
      (slot * 2 ^ 24 + (2 ^ 16 + 32 * 2 ^ 10)) >>> 24 = slot ∧
      (slot * 2 ^ 24 + (2 ^ 16 + 32 * 2 ^ 10)) >>> 16 % 32 = 1 := by
  unfold trbType
  rw [Nat.shiftRight_eq_div_pow, Nat.shiftRight_eq_div_pow]
  omega

theorem eventStatus {code residue : ℕ} (h : residue < 2 ^ 24) :
    (code * 2 ^ 24 + residue) >>> 24 = code ∧ (code * 2 ^ 24 + residue) % 2 ^ 24 = residue := by
  rw [Nat.shiftRight_eq_div_pow]
  omega

theorem usbEvent_transfer (e : UsbTrb) (hc : UsbHc UsbControl) (htype : trbType e.control = 32) :
    (usbEvent usbControlEvent e hc).devices = usbControlEvent e hc.devices := by
  have hcommand : ¬(trbType e.control = 33 ∧ e.parameter = hc.commandPending) := by
    rw [htype]
    exact fun h => absurd h.1 (by decide)
  unfold usbEvent
  dsimp only
  rw [if_neg hcommand, if_pos htype]

theorem completionEvent_type (slot address : ℕ) (c : Completion) :
    trbType (completionEvent slot address c).control = 32 :=
  (eventControl slot).1

/-- The event of a completion goes to the control endpoint. -/
theorem usbEvent_completion (slot address : ℕ) (c : Completion) (hc : UsbHc UsbControl) :
    (usbEvent usbControlEvent (completionEvent slot address c) hc).devices =
      usbControlEvent (completionEvent slot address c) hc.devices :=
  usbEvent_transfer _ hc (completionEvent_type slot address c)

/-- **The event of a completion, with its fields read.** -/
theorem usbControlEvent_completion (d : UsbControl) (a : ℕ) (c : Completion) :
    usbControlEvent (completionEvent d.slot a c) d =
      controlEnd (controlShort d a c.code.val c.residue.val) a c.code.val := by
  obtain ⟨_, hslot, hdci⟩ := eventControl d.slot
  have hresidue : c.residue.val < 2 ^ 24 := c.residue.isLt
  obtain ⟨hcode, hleft⟩ : _ ∧ _ := @eventStatus c.code.val c.residue.val hresidue
  unfold usbControlEvent completionEvent
  dsimp only
  rw [hslot, hdci, hcode, hleft, if_neg (by simp)]

/-- A success that is at no address of the call does nothing. -/
theorem usbControlEvent_stale (hok : usbSuccess c.code.val = true) (hpending : a ≠ d.controlPending)
    (hdata : a = d.controlData → c.code.val ≠ 13) :
    usbControlEvent (completionEvent d.slot a c) d = d := by
  have hshort : ¬(a = d.controlData ∧ c.code.val = 13) := fun h => hdata h.1 h.2
  have hend : ¬(a = d.controlPending ∨ usbSuccess c.code.val = false) := by
    rw [hok]
    simp [hpending]
  rw [usbControlEvent_completion, controlShort, if_neg hshort, controlEnd, if_neg hend]

/-- A completion away from the data stage leaves the length alone. -/
theorem usbControlEvent_other (hdata : a ≠ d.controlData) :
    usbControlEvent (completionEvent d.slot a c) d = controlEnd d a c.code.val := by
  rw [usbControlEvent_completion, controlShort, if_neg fun h => hdata h.1]

/-- The completion of the data stage takes its residue from the length. -/
theorem usbControlEvent_data (hdata : a = d.controlData)
    (hleft : c.left ≤ d.controlActual) :
    usbControlEvent (completionEvent d.slot a c) d =
      controlEnd { d with controlActual := d.controlActual - c.left } a c.code.val := by
  rw [usbControlEvent_completion]
  congr 1
  unfold Completion.left at hleft ⊢
  unfold controlShort
  by_cases hshort : c.code.val = 13
  · rw [if_pos hshort] at hleft ⊢
    rw [if_pos ⟨hdata, hshort⟩, if_neg (by omega)]
  · rw [if_neg hshort, if_neg fun h => hshort h.2, Nat.sub_zero]

/-! ## What a completion leaves -/

theorem controlEnd_kept (d : UsbControl) (parameter code : ℕ) :
    (controlEnd d parameter code).ring = d.ring ∧ (controlEnd d parameter code).slot = d.slot ∧
      (controlEnd d parameter code).controlData = d.controlData ∧
      (controlEnd d parameter code).controlPending = d.controlPending ∧
      (controlEnd d parameter code).controlActual = d.controlActual := by
  unfold controlEnd
  split_ifs <;> exact ⟨rfl, rfl, rfl, rfl, rfl⟩

/-- An event changes neither the ring nor the addresses that are waited for. -/
theorem usbControlEvent_kept (e : UsbTrb) (d : UsbControl) :
    (usbControlEvent e d).ring = d.ring ∧ (usbControlEvent e d).controlData = d.controlData ∧
      (usbControlEvent e d).controlPending = d.controlPending := by
  unfold usbControlEvent
  dsimp only
  split_ifs
  · exact ⟨rfl, rfl, rfl⟩
  · obtain ⟨hring, _, hdata, hpending, _⟩ := controlEnd_kept
      (controlShort d e.parameter (e.status >>> 24) (e.status % 2 ^ 24)) e.parameter (e.status >>> 24)
    rw [hring, hdata, hpending]
    unfold controlShort
    split_ifs <;> exact ⟨rfl, rfl, rfl⟩

/-- A completion adds its residue to that of its call, if it is one of the data stage. -/
theorem residueOf_append (log : List (CtlId × Completion)) (id : CtlId) (c : Completion) (call : ℕ) :
    residueOf (log ++ [(id, c)]) call =
      residueOf log call + if id = (call, .data) then c.left else 0 := by
  unfold residueOf
  rw [List.filter_append, List.map_append, List.sum_append]
  congr 1
  by_cases hid : id = (call, .data) <;> simp [hid]

/-- A call whose data stage is not completed has no residue. -/
theorem residueOf_eq_zero {log : List (CtlId × Completion)} {call : ℕ}
    (h : (call, CtlStage.data) ∉ log.map (·.1)) : residueOf log call = 0 := by
  unfold residueOf
  have hnone : log.filter (fun p => p.1 = (call, .data)) = [] := by
    rw [List.filter_eq_nil_iff]
    intro p hp hid
    apply h
    rw [← of_decide_eq_true hid]
    exact List.mem_map_of_mem hp
  rw [hnone]
  rfl

/-- A result stays right with one more completion that brings it no residue. -/
theorem CtlResult.Right.append {log : List (CtlId × Completion)} {r : CtlResult} {id : CtlId}
    (h : r.Right log) (hc : id.2 = .data → c.left ≠ 0 → r.call = id.1 → r.result = none) :
    r.Right (log ++ [(id, c)]) := by
  obtain ⟨call, length, result, timedOut⟩ := r
  cases result with
  | none =>
    rcases h with htime | ⟨stage, c', hmem, hfail⟩
    · exact Or.inl htime
    · exact Or.inr ⟨stage, c', List.mem_append_left _ hmem, hfail⟩
  | some n =>
    obtain ⟨⟨c', hmem, hok⟩, hn⟩ := h
    refine ⟨⟨c', List.mem_append_left _ hmem, hok⟩, ?_⟩
    rw [residueOf_append]
    by_cases hid : id = (call, .data)
    · subst hid
      by_cases hleft : c.left = 0
      · rw [if_pos rfl, hleft]
        exact hn
      · exact absurd (hc rfl hleft rfl) (by simp)
    · rw [if_neg hid]
      exact hn

/-! ## The invariant -/

/-- Where the TRBs of the running call are. -/
def UsbControl.Own (d : UsbControl) (address : ℕ) : CtlStage → Prop
  | .setup => address ≠ d.controlData ∧ address ≠ d.controlPending
  | .data => address = d.controlData ∧ address ≠ d.controlPending
  | .status => address = d.controlPending ∧ address ≠ d.controlData

/-- What holds of the running call. -/
structure CtlSys.Now (s : CtlSys) (call length : ℕ) : Prop where
  last : call < s.calls
  length : s.dev.controlActual + residueOf s.log call = length
  done : s.dev.controlDone = true → ∃ stage c, ((call, stage), c) ∈ s.log ∧
    c.code.val = s.dev.controlCode ∧ (stage = .status ∨ usbSuccess c.code.val = false)
  own : ∀ t ∈ s.queued, t.id.1 = call → s.dev.Own t.address t.id.2

/-- The TRBs so far, on the ring and completed. -/
def CtlSys.ids (s : CtlSys) : List CtlId := s.queued.map CtlTrb.id ++ s.log.map Prod.fst

structure CtlSys.Inv (s : CtlSys) : Prop where
  enqueue : s.dev.ring.enqueue < 63
  trbs : 0 < s.dev.ring.trbs
  once : s.ids.Nodup
  known : ∀ id ∈ s.ids, id.1 < s.calls
  right : s.Right
  now : ∀ call length, s.current = some (call, length) → s.Now call length

theorem ctlStart_inv {slot buffer trbs : ℕ} (h : 0 < trbs) : (ctlStart slot buffer trbs).Inv where
  enqueue := by simp [ctlStart]
  trbs := h
  once := List.nodup_nil
  known := by
    intro id hid
    exact absurd hid List.not_mem_nil
  right := by
    intro r hr
    exact absurd hr List.not_mem_nil
  now := by
    intro call length hcurrent
    exact absurd hcurrent (by simp [ctlStart])

/-- The TRBs of a call are of the call, once each. -/
theorem callTrbs_ids (call setupAt : ℕ) (dataAt : Option ℕ) (statusAt : ℕ) :
    ((callTrbs call setupAt dataAt statusAt).map CtlTrb.id).Nodup ∧
      ∀ t ∈ callTrbs call setupAt dataAt statusAt, t.id.1 = call := by
  cases dataAt <;> simp [callTrbs]

/-- The TRBs of a call are where the device waits for them. -/
theorem callTrbs_own {d d' : UsbControl} {length call setupAt statusAt : ℕ} {dataAt : Option ℕ}
    (h : Begun d d' length setupAt dataAt statusAt) :
    ∀ t ∈ callTrbs call setupAt dataAt statusAt, d'.Own t.address t.id.2 := by
  intro t ht
  unfold callTrbs at ht
  rw [List.cons_append, List.mem_cons, List.mem_append, List.mem_singleton, List.mem_map] at ht
  rcases ht with rfl | ⟨a, ha, rfl⟩ | rfl
  · refine ⟨?_, ?_⟩
    · rw [h.data]
      exact h.setup_ne_data
    · rw [h.pending]
      exact h.setup_ne_status
  · have hdata : dataAt = some a := by simpa using ha
    refine ⟨?_, ?_⟩
    · rw [h.data, hdata]
      rfl
    · rw [h.pending]
      intro heq
      apply h.status_ne_data
      rw [hdata, ← heq]
      rfl
  · refine ⟨?_, ?_⟩
    · rw [h.pending]
    · rw [h.data]
      exact h.status_ne_data

/-! ## A step -/

/-- **A call.** Its TRBs are new, and where the device waits for them. -/
theorem CtlSys.Inv.call (h : s.Inv) (rt request value index length : ℕ) :
    (ctlStep s (.call rt request value index length)).Inv := by
  by_cases hbusy : s.current ≠ none ∨ length > 4096 ∨ s.running = false
  · rw [ctlStep, if_pos hbusy]
    exact h
  rw [ctlStep, if_neg hbusy]
  have hbegun := usbControlBegin_spec s.dev rt request value index length h.enqueue h.trbs
  generalize usbControlBegin s.dev rt request value index length = begun at hbegun ⊢
  obtain ⟨dev, setupAt, dataAt, statusAt⟩ := begun
  dsimp only at hbegun ⊢
  obtain ⟨hfresh, hcall⟩ := callTrbs_ids s.calls setupAt dataAt statusAt
  have hown := @callTrbs_own _ _ _ s.calls _ _ _ hbegun
  generalize callTrbs s.calls setupAt dataAt statusAt = trbs at hfresh hcall hown ⊢
  have hperm : List.Perm ((s.queued ++ trbs).map CtlTrb.id ++ s.log.map Prod.fst)
      (trbs.map CtlTrb.id ++ s.ids) := by
    rw [List.map_append, CtlSys.ids, ← List.append_assoc]
    exact List.perm_append_comm.append_right _
  have hnew : ∀ id ∈ trbs.map CtlTrb.id, id.1 = s.calls := by
    intro id hid
    obtain ⟨t, ht, rfl⟩ := List.mem_map.mp hid
    exact hcall t ht
  constructor
  · exact hbegun.enqueue
  · rw [hbegun.trbs]
    exact h.trbs
  · refine hperm.nodup_iff.mpr (hfresh.append h.once ?_)
    intro id hid hold
    have hlt := h.known id hold
    rw [hnew id hid] at hlt
    exact absurd hlt (Nat.lt_irrefl _)
  · intro id hid
    rcases List.mem_append.mp (hperm.mem_iff.mp hid) with hid | hold
    · rw [hnew id hid]
      exact Nat.lt_succ_self _
    · exact Nat.lt_succ_of_lt (h.known id hold)
  · exact h.right
  · intro call length' hcurrent
    obtain ⟨rfl, rfl⟩ := Prod.mk.inj (Option.some.inj hcurrent)
    constructor
    · exact Nat.lt_succ_self _
    · rw [hbegun.actual, residueOf_eq_zero]
      · rfl
      · intro hlogged
        exact absurd (h.known _ (List.mem_append_right _ hlogged)) (Nat.lt_irrefl _)
    · intro hdone
      rw [hbegun.done] at hdone
      exact absurd hdone Bool.false_ne_true
    · intro t ht hid
      rcases List.mem_append.mp ht with hold | hmem
      · have hlt := h.known t.id (List.mem_append_left _ (List.mem_map_of_mem hold))
        rw [hid] at hlt
        exact absurd hlt (Nat.lt_irrefl _)
      · exact hown t hmem

/-- The end of a call with a result that is right. -/
theorem CtlSys.Inv.finish {call length : ℕ} {result : Option ℕ} {timedOut : Bool} (h : s.Inv)
    (hr : (⟨call, length, result, timedOut⟩ : CtlResult).Right s.log) :
    (s.finish call length result timedOut).Inv where
  enqueue := h.enqueue
  trbs := h.trbs
  once := h.once
  known := h.known
  right := by
    intro r hmem
    rcases List.mem_append.mp hmem with hold | hnew
    · exact h.right r hold
    · rw [List.mem_singleton.mp hnew]
      exact hr
  now := by
    intro call length hcurrent
    exact absurd hcurrent (by simp [CtlSys.finish])

/-- **What `usb_control` returns is right.** -/
theorem CtlSys.Now.checked {call length : ℕ} {result : Option ℕ} (h : s.Now call length)
    (hcheck : usbControlCheck s.dev = some result) :
    (⟨call, length, result, false⟩ : CtlResult).Right s.log := by
  unfold usbControlCheck at hcheck
  by_cases hdone : s.dev.controlDone = true
  · rw [if_pos hdone] at hcheck
    obtain ⟨stage, c, hmem, hcode, hwhy⟩ := h.done hdone
    rw [← hcode] at hcheck
    by_cases hok : usbSuccess c.code.val = true
    · rw [if_pos hok] at hcheck
      obtain rfl := Option.some.inj hcheck
      have hstatus : stage = .status := by
        rcases hwhy with hstatus | hfail
        · exact hstatus
        · rw [hok] at hfail
          exact absurd hfail Bool.noConfusion
      subst hstatus
      exact ⟨⟨c, hmem, hok⟩, h.length⟩
    · rw [if_neg hok] at hcheck
      obtain rfl := Option.some.inj hcheck
      exact Or.inr ⟨stage, c, hmem, eq_false_of_ne_true hok⟩
  · rw [if_neg hdone] at hcheck
    exact absurd hcheck (by simp)

theorem CtlSys.Inv.check (h : s.Inv) : (ctlStep s .check).Inv := by
  unfold ctlStep
  dsimp only
  split
  · rename_i call length result hcurrent hcheck
    exact h.finish ((h.now call length hcurrent).checked hcheck)
  · exact h

theorem CtlSys.Inv.timeout (h : s.Inv) : (ctlStep s .timeout).Inv := by
  unfold ctlStep
  dsimp only
  split
  · exact h
  · rename_i call length hcurrent
    split
    · rename_i result hcheck
      exact h.finish ((h.now call length hcurrent).checked hcheck)
    · have hfailed : ({ s with dev := { s.dev with failed := 0x101 } } : CtlSys).Inv := by
        constructor
        · exact h.enqueue
        · exact h.trbs
        · exact h.once
        · exact h.known
        · exact h.right
        · intro call length hcurrent
          have hnow := h.now call length hcurrent
          refine ⟨hnow.last, hnow.length, hnow.done, ?_⟩
          intro t ht hid
          have hown := hnow.own t ht hid
          generalize t.id.2 = stage at hown ⊢
          cases stage <;> exact hown
      exact hfailed.finish (Or.inl rfl)

/-! ## A completion -/

/-- The address of the status stage is that of no other. -/
theorem UsbControl.Own.pending_iff {stage : CtlStage} (h : d.Own a stage) :
    a = d.controlPending ↔ stage = .status := by
  cases stage with
  | setup => exact iff_of_false h.2 (by decide)
  | data => exact iff_of_false h.2 (by decide)
  | status => exact iff_of_true h.1 rfl

/-- What a completion of the running call does: the data stage takes its residue. -/
theorem UsbControl.Own.event {stage : CtlStage} (h : d.Own a stage)
    (hleft : stage = .data → c.left ≤ d.controlActual) :
    usbControlEvent (completionEvent d.slot a c) d =
      controlEnd { d with controlActual := d.controlActual - if stage = .data then c.left else 0 }
        a c.code.val := by
  cases stage with
  | setup => exact usbControlEvent_other h.1
  | data => exact usbControlEvent_data h.1 (hleft rfl)
  | status => exact usbControlEvent_other h.2

/-- A device that is done was done before, or the event ended the transfer. -/
theorem controlEnd_done {parameter code : ℕ}
    (h : (controlEnd d parameter code).controlDone = true) :
    (controlEnd d parameter code).controlCode = code ∧
        (parameter = d.controlPending ∨ usbSuccess code = false) ∨
      d.controlDone = true ∧ (controlEnd d parameter code).controlCode = d.controlCode := by
  unfold controlEnd at h ⊢
  split_ifs at h ⊢ with hend
  · exact Or.inl ⟨rfl, hend⟩
  · exact Or.inr ⟨h, rfl⟩

/-- The system after the completion of a TRB that leaves `dev`. -/
def CtlSys.completed (s : CtlSys) (dev : UsbControl) (k : ℕ) (t : CtlTrb) (c : Completion) : CtlSys :=
  { s with dev := dev, queued := s.queued.eraseIdx k, log := s.log ++ [(t.id, c)] }

/-- The TRBs on the ring stay where the device waits for them. -/
theorem CtlSys.Now.completed_own {dev : UsbControl} {k call length : ℕ} {t : CtlTrb}
    (h : s.Now call length) (hdata : dev.controlData = s.dev.controlData)
    (hpending : dev.controlPending = s.dev.controlPending) :
    ∀ u ∈ (s.completed dev k t c).queued, u.id.1 = call → dev.Own u.address u.id.2 := by
  intro u hu hid
  have hown := h.own u (List.mem_of_mem_eraseIdx hu) hid
  generalize u.id.2 = stage at hown ⊢
  cases stage <;> dsimp only [UsbControl.Own] at hown ⊢ <;> rw [hdata, hpending] <;> exact hown

/-- **A completion of the running call.** -/
theorem CtlSys.Inv.completed_own {dev : UsbControl} {k call length : ℕ} {t : CtlTrb} (h : s.Inv)
    (hnow : s.Now call length) (ht : t ∈ s.queued) (hcall : t.id.1 = call)
    (hleft : t.id.2 = .data → c.left ≤ length)
    (hdev : usbControlEvent (completionEvent s.dev.slot t.address c) s.dev = dev) :
    (s.completed dev k t c).Now call length := by
  have hown := hnow.own t ht hcall
  have hid : t.id = (call, t.id.2) := Prod.ext hcall rfl
  -- the data stage is on the ring, so it has not been completed
  have hroom : t.id.2 = .data → c.left ≤ s.dev.controlActual := by
    intro hdata
    have hzero : residueOf s.log call = 0 := by
      apply residueOf_eq_zero
      rw [← hdata, ← hid]
      exact fun hlogged =>
        (List.disjoint_of_nodup_append h.once) (List.mem_map_of_mem ht) hlogged
    have hlength := hnow.length
    have hle := hleft hdata
    omega
  rw [hown.event hroom] at hdev
  subst hdev
  obtain ⟨_, _, hdata, hpending, hactual⟩ := controlEnd_kept
    { s.dev with
      controlActual := s.dev.controlActual - if t.id.2 = .data then c.left else 0 }
    t.address c.code.val
  constructor
  · exact hnow.last
  · unfold CtlSys.completed
    dsimp only
    rw [residueOf_append, hactual]
    dsimp only
    have hiff : (t.id = (call, .data)) ↔ t.id.2 = .data := by
      rw [hid]
      simp
    have hlength := hnow.length
    by_cases hdata : t.id.2 = .data
    · have hle := hroom hdata
      rw [if_pos hdata, if_pos (hiff.mpr hdata)]
      omega
    · rw [if_neg hdata, if_neg fun heq => hdata (hiff.mp heq)]
      omega
  · intro hdone
    unfold CtlSys.completed at hdone ⊢
    dsimp only at hdone ⊢
    rcases controlEnd_done hdone with ⟨hcode, hwhy⟩ | ⟨hbefore, hcode⟩
    · refine ⟨t.id.2, c, ?_, hcode.symm, ?_⟩
      · rw [← hid]
        exact List.mem_append_right _ List.mem_cons_self
      · exact hwhy.imp_left hown.pending_iff.mp
    · obtain ⟨stage, c', hmem, hcode', hwhy⟩ := hnow.done hbefore
      exact ⟨stage, c', List.mem_append_left _ hmem, hcode'.trans hcode.symm, hwhy⟩
  · exact hnow.completed_own hdata hpending

/-- **A completion of an earlier call that does nothing.** -/
theorem CtlSys.Now.completed_stale {k call length : ℕ} {t : CtlTrb} (hnow : s.Now call length)
    (hcall : t.id.1 ≠ call) : (s.completed s.dev k t c).Now call length := by
  constructor
  · exact hnow.last
  · unfold CtlSys.completed
    dsimp only
    rw [residueOf_append, if_neg fun heq => hcall (by rw [heq])]
    exact hnow.length
  · intro hdone
    obtain ⟨stage, c', hmem, hcode, hwhy⟩ := hnow.done hdone
    exact ⟨stage, c', List.mem_append_left _ hmem, hcode, hwhy⟩
  · exact hnow.completed_own rfl rfl

theorem ctlStep_complete {k : ℕ} {t : CtlTrb} (hk : s.queued[k]? = some t) (hrun : s.running ≠ false) :
    ctlStep s (.complete k c) =
      s.completed (usbControlEvent (completionEvent s.dev.slot t.address c) s.dev) k t c := by
  unfold ctlStep CtlSys.completed
  dsimp only
  rw [hk]
  dsimp only
  rw [if_neg hrun]

/-- **A fresh completion keeps the invariant**, whatever device it leaves. -/
theorem CtlSys.Inv.completed {dev : UsbControl} {k : ℕ} {t : CtlTrb} (h : s.Inv)
    (hk : s.queued[k]? = some t) (hfresh : s.Fresh (.complete k c))
    (hdev : usbControlEvent (completionEvent s.dev.slot t.address c) s.dev = dev)
    (hring : dev.ring = s.dev.ring) : (s.completed dev k t c).Inv := by
  obtain ⟨hnow, hreturned⟩ := hfresh t hk
  obtain ⟨hlt, hget⟩ := List.getElem?_eq_some_iff.mp hk
  have hmem : t ∈ s.queued := List.mem_of_getElem? hk
  have herase : List.Perm (t :: s.queued.eraseIdx k) s.queued := by
    rw [← hget]
    exact List.getElem_cons_eraseIdx_perm hlt
  have hperm : List.Perm (s.completed dev k t c).ids s.ids := by
    show List.Perm ((s.queued.eraseIdx k).map CtlTrb.id ++ (s.log ++ [(t.id, c)]).map Prod.fst) _
    rw [List.map_append, ← List.append_assoc]
    refine (@List.perm_append_comm _ _ [t.id]).trans ?_
    exact (herase.map CtlTrb.id).append_right _
  constructor
  · show dev.ring.enqueue < 63
    rw [hring]
    exact h.enqueue
  · show 0 < dev.ring.trbs
    rw [hring]
    exact h.trbs
  · exact hperm.nodup_iff.mpr h.once
  · intro id hid
    exact h.known id (hperm.mem_iff.mp hid)
  · intro r hr
    exact (h.right r hr).append fun hdata hleft => hreturned hdata hleft r hr
  · intro call length hcurrent
    have hcond := hnow (call, length) hcurrent
    by_cases hcall : t.id.1 = call
    · rw [if_pos hcall] at hcond
      exact h.completed_own (h.now call length hcurrent) hmem hcall hcond hdev
    · rw [if_neg hcall] at hcond
      obtain ⟨hok, hpending, hdata⟩ := hcond
      rw [usbControlEvent_stale hok hpending hdata] at hdev
      subst hdev
      exact (h.now call length hcurrent).completed_stale hcall

theorem CtlSys.Inv.complete (h : s.Inv) (k : ℕ) (c : Completion) (hfresh : s.Fresh (.complete k c)) :
    (ctlStep s (.complete k c)).Inv := by
  rcases hk : s.queued[k]? with _ | t
  · unfold ctlStep
    dsimp only
    rw [hk]
    exact h
  by_cases hrun : s.running = false
  · unfold ctlStep
    dsimp only
    rw [hk]
    dsimp only
    rw [if_pos hrun]
    exact h
  rw [ctlStep_complete hk hrun]
  exact h.completed hk hfresh rfl (usbControlEvent_kept _ _).1

/-! ## The runs -/

theorem ctlStep_inv (h : s.Inv) (hfresh : s.Fresh act) : (ctlStep s act).Inv := by
  cases act with
  | call rt request value index length => exact h.call rt request value index length
  | complete k c => exact h.complete k c hfresh
  | check => exact h.check
  | timeout => exact h.timeout
  | halt => exact ⟨h.enqueue, h.trbs, h.once, h.known, h.right, fun call length hcurrent =>
      ⟨(h.now call length hcurrent).last, (h.now call length hcurrent).length,
        (h.now call length hcurrent).done, (h.now call length hcurrent).own⟩⟩

theorem ctlRun_inv (acts : List CtlAct) (h : s.Inv) (hfresh : RunFresh s acts) :
    (ctlRun s acts).Inv := by
  induction acts generalizing s with
  | nil => exact h
  | cons act acts ih => exact ih (ctlStep_inv h hfresh.1) hfresh.2

/-- **Every run whose completions are fresh gives right results.** -/
theorem ctlRun_right (slot buffer trbs : ℕ) (acts : List CtlAct) (htrbs : 0 < trbs)
    (hfresh : RunFresh (ctlStart slot buffer trbs) acts) :
    (ctlRun (ctlStart slot buffer trbs) acts).Right :=
  (ctlRun_inv acts (ctlStart_inv htrbs) hfresh).right

/-- A call for 18 bytes whose data stage brings 8. -/
def shortRun : List CtlAct :=
  [.call 128 6 256 0 18, .complete 0 ⟨1, 0⟩, .complete 0 ⟨13, 10⟩, .complete 0 ⟨1, 0⟩, .check]

theorem ctlRun_right_short :
    (ctlRun (ctlStart 1 4096 65536) shortRun).results = [⟨0, 18, some 8, false⟩] ∧
      (ctlRun (ctlStart 1 4096 65536) shortRun).Right :=
  ⟨by decide +kernel, ctlRun_right 1 4096 65536 shortRun (by decide) (by decide +kernel)⟩

/-- Two requests without data; the status stage of the first stalls after its time is over. -/
def staleRun : List CtlAct :=
  [.call 35 3 8 1 0, .timeout, .call 35 3 4 1 0, .complete 1 ⟨6, 0⟩, .check]

/-- **The event of a call that is over fails the next one**, which returns -1 although none of its TRBs
has completed. -/
theorem stale_failure :
    ¬∀ (slot buffer trbs : ℕ) (acts : List CtlAct), 0 < trbs →
      (ctlRun (ctlStart slot buffer trbs) acts).Right := by
  intro h
  have hresults : (ctlRun (ctlStart 1 4096 65536) staleRun).results =
      [⟨0, 0, none, true⟩, ⟨1, 0, none, false⟩] := by
    decide +kernel
  have hlog : (ctlRun (ctlStart 1 4096 65536) staleRun).log = [((0, .status), ⟨6, 0⟩)] := by
    decide +kernel
  have hmem : ⟨1, 0, none, false⟩ ∈ (ctlRun (ctlStart 1 4096 65536) staleRun).results := by
    rw [hresults]
    simp
  have hright := h 1 4096 65536 staleRun (by decide) _ hmem
  rw [hlog] at hright
  rcases hright with htime | ⟨stage, c, hown, _⟩
  · exact absurd htime Bool.false_ne_true
  · simp at hown

end ZealBringup.Usb
