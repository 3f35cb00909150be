import Mathlib.Algebra.BigOperators.Group.List.Basic
import Mathlib.Data.List.Perm.Basic
import ZealBringup.Input.Tablet

/-!
# Runs of the tablet

The driver together with a device that takes the offered descriptors, reports events in any of those
it holds, and is polled and sampled at any time.

* `VtSys`, `vtStep`, `vtRun` — the system; it keeps what the device has told.
* `VtSys.Inv` — every descriptor is offered, held or used, and a poll would bring the pointer to what
  was told.
* `tabletFaithful_iff` — every sample is right exactly when its quotients fit and the wheel does not
  overflow.
-/

namespace ZealBringup.Input

open Fifo

attribute [local instance] vtSlotsPos vtIndexPos

/-! ## The system -/

/-- The driver, the device, and what the device has told: its events, the steps of the wheel since
the wheel was read last, and the most that there were. -/
structure VtSys where
  dev : VtDev
  taken : VtIndex
  held : List UInt16
  told : List VtEvent
  steps : ℤ
  peak : ℕ

inductive VtAct where
  | take
  | report (k : ℕ) (ev : VtEvent)
  | poll
  | sample (w h : UInt32) (buttons wheel : Bool)

/-- A sample and what had been told before it. -/
structure VtShot where
  told : List VtEvent
  steps : ℤ
  peak : ℕ
  w : UInt32
  h : UInt32
  reading : VtReading

/-- The device writes an event into a descriptor and uses it. -/
def VtDev.use (d : VtDev) (id : UInt16) (ev : VtEvent) : VtDev :=
  { d with
    events := Function.update d.events (Fin.ofNat vtQsize id.toNat) ev
    used := Function.update d.used (slot vtQsize d.usedIdx) id.toUInt32
    usedIdx := d.usedIdx + 1 }

def vtStep (s : VtSys) : VtAct → Option (VtSys × List VtShot)
  | .take =>
    if s.taken = s.dev.availPub then some (s, [])
    else
      some ({ s with taken := s.taken + 1, held := s.held ++ [s.dev.avail (slot vtQsize s.taken)] },
        [])
  | .report k ev =>
    match s.held[k]? with
    | none => some (s, [])
    | some id =>
      some ({ s with
        dev := s.dev.use id ev
        held := s.held.eraseIdx k
        told := s.told ++ [ev]
        steps := s.steps + wheelDelta ev
        peak := max s.peak (s.steps + wheelDelta ev).natAbs }, [])
  | .poll => (virtioTabletPoll s.dev).map fun d => ({ s with dev := d }, [])
  | .sample w h buttons wheel =>
    (virtioTabletSample s.dev w h buttons wheel).map fun (d, r) =>
      match r with
      | none => ({ s with dev := d }, [])
      | some r => ({ s with dev := d, steps := if wheel then 0 else s.steps },
          [⟨s.told, s.steps, s.peak, w, h, r⟩])

def vtRun : VtSys → List VtAct → Option (VtSys × List VtShot)
  | s, [] => some (s, [])
  | s, a :: as =>
    (vtStep s a).bind fun (s', shots) =>
      (vtRun s' as).map fun (s'', more) => (s'', shots ++ more)

/-- What `virtio_tablet_init` leaves, with the maxima that the device reports. -/
def vtInit (d : VtDev) (maxX maxY : ℤ) : VtDev :=
  [0, 1, 2, 3, 4, 5, 6, 7].foldl vtOffer
    { d with
      avail := fun _ => 0, availPub := 0, used := fun _ => 0, usedIdx := 0
      events := fun _ => ⟨0, 0, 0⟩, lastUsed := 0, availIdx := 0
      absX := 0, absY := 0, maxX := maxX, maxY := maxY, moved := false, ready := true }

/-- The system after a start. -/
def vtStart (d : VtDev) (maxX maxY : ℤ) : VtSys :=
  ⟨vtInit d maxX maxY, 0, [], [], d.wheel, d.wheel.natAbs⟩

/-! ## What it is for -/

/-- The last value that some events give. -/
def lastValue {β : Type} (sel : VtEvent → Option β) (b : β) (evs : List VtEvent) : β :=
  evs.foldl (fun b e => (sel e).getD b) b

/-- A sample is right: the pixels are those of the last values of the axes, the buttons are those of
the last events, and the wheel has every step unless there were too many. -/
structure VtShot.Right (d : VtDev) (maxX maxY : ℤ) (shot : VtShot) : Prop where
  x : (shot.reading.x : ℤ) = axisTarget (lastValue (axisOf 0) 0 shot.told) maxX shot.w
  y : (shot.reading.y : ℤ) = axisTarget (lastValue (axisOf 1) 0 shot.told) maxY shot.h
  buttons : ∀ b, shot.reading.buttons = some b →
    b[0] = lastValue (buttonOf 0x110) d.buttons[0] shot.told ∧
      b[1] = lastValue (buttonOf 0x111) d.buttons[1] shot.told
  wheel : shot.peak ≤ 127 → ∀ n, shot.reading.wheel = some n → n = shot.steps

/-- The descriptors that are offered and not taken. -/
def VtSys.free (s : VtSys) : List UInt16 := s.dev.free s.taken

/-- Every descriptor is in one place, and a poll offers those that are used, each once. -/
structure VtSys.Conserved (s : VtSys) : Prop where
  perm : (s.free ++ s.held ++ s.dev.pendingIds.map UInt32.toUInt16).Perm [0, 1, 2, 3, 4, 5, 6, 7]
  poll : ∀ d, virtioTabletPoll s.dev = some d →
    d.free s.taken = s.free ++ s.dev.pendingIds.map UInt32.toUInt16 ∧ d.pendingIds = []

/-- The steps that some events turn the wheel. -/
def wheelSum (evs : List VtEvent) : ℤ := (evs.map wheelDelta).sum

/-- The steps that some samples return. -/
def returned (shots : List VtShot) : ℤ := (shots.filterMap fun shot => shot.reading.wheel).sum

/-- A run is defined, its samples are right, no step of the wheel is lost unless there were too many,
and no descriptor is lost. -/
def TabletFaithful (d : VtDev) (maxX maxY : ℤ) (acts : List VtAct) : Prop :=
  ∃ s shots, vtRun (vtStart d maxX maxY) acts = some (s, shots) ∧
    (∀ shot ∈ shots, shot.Right d maxX maxY) ∧
    (s.peak ≤ 127 → returned shots + s.steps = d.wheel + wheelSum s.told) ∧ s.Conserved

/-- What a step needs: the wheel does not overflow, and the quotients of a sample fit. -/
def StepFits (s : VtSys) : VtAct → Prop
  | .take => True
  | .report _ _ => True
  | .poll => WheelFits s.dev.wheel s.dev.pending
  | .sample w h _ _ => 2 ≤ w → 2 ≤ h →
    WheelFits s.dev.wheel s.dev.pending ∧
      AxisFits (lastValue (axisOf 0) 0 s.told) s.dev.maxX w ∧
      AxisFits (lastValue (axisOf 1) 0 s.told) s.dev.maxY h

instance (s : VtSys) : (a : VtAct) → Decidable (StepFits s a)
  | .take => inferInstanceAs (Decidable True)
  | .report _ _ => inferInstanceAs (Decidable True)
  | .poll => inferInstanceAs (Decidable (WheelFits _ _))
  | .sample _ _ _ _ => inferInstanceAs (Decidable (_ → _ → _ ∧ _ ∧ _))

/-- Every step of a run has what it needs. -/
def RunFits : VtSys → List VtAct → Prop
  | _, [] => True
  | s, a :: as => StepFits s a ∧ ∀ r ∈ vtStep s a, RunFits r.1 as

instance decidableRunFits : (s : VtSys) → (as : List VtAct) → Decidable (RunFits s as)
  | _, [] => inferInstanceAs (Decidable True)
  | s, a :: as =>
    have := fun r : VtSys × List VtShot => decidableRunFits r.1 as
    inferInstanceAs (Decidable (_ ∧ ∀ r ∈ vtStep s a, _))

/-! ## The invariant -/

variable {d : VtDev} {maxX maxY : ℤ} {s s' : VtSys} {a : VtAct} {acts : List VtAct}
  {shots : List VtShot} {w ht : UInt32}

/-- The pointer that a poll would leave. -/
def VtDev.settled (d : VtDev) : Pointer := d.pending.foldl Pointer.next d.pointer

/-- Every descriptor is in one place, and a poll would bring the pointer to what was told. -/
structure VtSys.Inv (d : VtDev) (maxX maxY : ℤ) (s : VtSys) : Prop where
  ready : s.dev.ready = true
  max_x : s.dev.maxX = maxX
  max_y : s.dev.maxY = maxY
  pub : s.dev.availPub = s.dev.availIdx
  byte : WheelByte s.dev.wheel
  perm : (s.free ++ s.held ++ s.dev.pendingIds.map UInt32.toUInt16).Perm [0, 1, 2, 3, 4, 5, 6, 7]
  x : s.dev.settled.x = lastValue (axisOf 0) 0 s.told
  y : s.dev.settled.y = lastValue (axisOf 1) 0 s.told
  left : s.dev.settled.left = lastValue (buttonOf 0x110) d.buttons[0] s.told
  right : s.dev.settled.right = lastValue (buttonOf 0x111) d.buttons[1] s.told
  wheel : s.peak ≤ 127 → s.dev.settled.wheel = s.steps

theorem lastValue_concat {β : Type} (sel : VtEvent → Option β) (b : β) (evs : List VtEvent)
    (ev : VtEvent) : lastValue sel b (evs ++ [ev]) = (sel ev).getD (lastValue sel b evs) := by
  rw [lastValue, List.foldl_append]
  rfl

theorem wheelSum_concat (evs : List VtEvent) (ev : VtEvent) :
    wheelSum (evs ++ [ev]) = wheelSum evs + wheelDelta ev := by
  rw [wheelSum, List.map_append, List.sum_append, List.map_singleton, List.sum_singleton]
  rfl

/-- The eight descriptors are all there are. -/
theorem VtSys.Inv.lengths (h : s.Inv d maxX maxY) :
    s.free.length + s.held.length + s.dev.pendingIds.length = vtQsize := by
  have hlen := h.perm.length_eq
  rw [List.length_append, List.length_append, List.length_map] at hlen
  exact hlen

theorem VtSys.Inv.room (h : s.Inv d maxX maxY) :
    (s.dev.free s.taken).length + s.dev.pendingIds.length ≤ vtQsize := by
  have hall : (s.dev.free s.taken).length + s.held.length + _ = _ := h.lengths
  omega

/-- A driver that is ready samples every screen. -/
theorem VtSys.Inv.gate (h : s.Inv d maxX maxY) (hw : 2 ≤ w) (hh : 2 ≤ ht) :
    ¬(s.dev.ready = false ∨ w < 2 ∨ ht < 2) := by
  rw [h.ready]
  rintro (h0 | h0 | h0)
  · cases h0
  · exact absurd h0 (UInt32.not_lt.mpr hw)
  · exact absurd h0 (UInt32.not_lt.mpr hh)

/-- A wheel that overflows. -/
theorem VtSys.Inv.poll_none (h : s.Inv d maxX maxY)
    (hfits : ¬WheelFits s.dev.wheel s.dev.pending) : virtioTabletPoll s.dev = none := by
  have hrun := vtPollLoop_eq s.taken s.dev h.byte h.room
  rw [if_neg hfits] at hrun
  rw [virtioTabletPoll, if_pos h.ready, hrun]

/-- **The start.** -/
theorem vtStart_inv (d : VtDev) (maxX maxY : ℤ) (hw : WheelByte d.wheel) :
    (vtStart d maxX maxY).Inv d maxX maxY where
  ready := rfl
  max_x := rfl
  max_y := rfl
  pub := rfl
  byte := hw
  perm := List.Perm.of_eq rfl
  x := rfl
  y := rfl
  left := rfl
  right := rfl
  wheel _ := rfl

/-- **A device that takes a descriptor.** -/
theorem VtSys.Inv.take (h : s.Inv d maxX maxY) (hne : s.taken ≠ s.dev.availPub) :
    VtSys.Inv d maxX maxY { s with
      taken := s.taken + 1, held := s.held ++ [s.dev.avail (slot vtQsize s.taken)] } := by
  have hpop : s.free = s.dev.avail (slot vtQsize s.taken) ::
      window s.dev.avail (s.taken + 1) s.dev.availIdx := window_pop (h.pub ▸ hne)
  refine ⟨h.ready, h.max_x, h.max_y, h.pub, h.byte, ?_, h.x, h.y, h.left, h.right, h.wheel⟩
  refine List.Perm.trans (List.Perm.append_right _ ?_) h.perm
  rw [hpop, ← List.append_assoc]
  exact List.perm_append_singleton _ _

/-- The descriptors that are pending are not held. -/
theorem VtSys.Inv.event_ne (h : s.Inv d maxX maxY) {id : UInt16} (hid : id ∈ s.held) {u : UInt32}
    (hu : u ∈ s.dev.pendingIds) : Fin.ofNat vtQsize u.toNat ≠ Fin.ofNat vtQsize id.toNat := by
  have hu16 : u.toUInt16 ∈ s.dev.pendingIds.map UInt32.toUInt16 := List.mem_map_of_mem hu
  have hne : id ≠ u.toUInt16 := by
    have hnodup := h.perm.nodup_iff.mpr (by decide)
    exact (List.nodup_append.mp hnodup).2.2 id (List.mem_append_right _ hid) _ hu16
  have hsmall : ∀ v ∈ [0, 1, 2, 3, 4, 5, 6, (7 : UInt16)], v.toNat < 8 := by
    intro v hv
    simp only [List.mem_cons, List.not_mem_nil, or_false] at hv
    obtain rfl | rfl | rfl | rfl | rfl | rfl | rfl | rfl := hv <;> decide
  have hlow := hsmall _ (h.perm.mem_iff.mp (List.mem_append_right _ hu16))
  have hlow' := hsmall _ (h.perm.mem_iff.mp (List.mem_append_left _ (List.mem_append_right _ hid)))
  intro heq
  apply hne
  have hval : u.toNat % 8 = id.toNat % 8 := congrArg Fin.val heq
  rw [UInt32.toNat_toUInt16] at hlow
  apply UInt16.toNat_inj.mp
  rw [UInt32.toNat_toUInt16]
  omega

/-- The pending events with one more. -/
theorem VtSys.Inv.pending_use (h : s.Inv d maxX maxY) {id : UInt16} (ev : VtEvent)
    (hid : id ∈ s.held) :
    (s.dev.use id ev).pendingIds = s.dev.pendingIds ++ [id.toUInt32] ∧
      (s.dev.use id ev).pending = s.dev.pending ++ [ev] := by
  have hlen : s.dev.pendingIds.length < vtQsize := by
    have hall := h.lengths
    have hheld := List.length_pos_of_mem hid
    omega
  have hids : (s.dev.use id ev).pendingIds = s.dev.pendingIds ++ [id.toUInt32] :=
    window_push (by decide) (by decide) _ hlen
  refine ⟨hids, ?_⟩
  rw [VtDev.pending, hids, List.map_append, List.map_singleton]
  congr 1
  · apply List.map_congr_left
    intro u hu
    exact Function.update_of_ne (h.event_ne hid hu) _ _
  · have hself : (s.dev.use id ev).event id.toUInt32 = ev := by
      unfold VtDev.event VtDev.use
      dsimp only
      rw [UInt16.toNat_toUInt32, Function.update_self]
    rw [hself]

/-- **A device that reports an event.** -/
theorem VtSys.Inv.report (h : s.Inv d maxX maxY) {k : ℕ} {id : UInt16} (ev : VtEvent)
    (hk : s.held[k]? = some id) :
    VtSys.Inv d maxX maxY { s with
      dev := s.dev.use id ev
      held := s.held.eraseIdx k
      told := s.told ++ [ev]
      steps := s.steps + wheelDelta ev
      peak := max s.peak (s.steps + wheelDelta ev).natAbs } := by
  have hid : id ∈ s.held := List.mem_of_getElem? hk
  obtain ⟨hids, hpending⟩ := h.pending_use ev hid
  have hsettled : (s.dev.use id ev).settled = s.dev.settled.next ev := by
    rw [VtDev.settled, hpending, List.foldl_append]
    rfl
  refine ⟨h.ready, h.max_x, h.max_y, h.pub, h.byte, ?_, ?_, ?_, ?_, ?_, ?_⟩
  · -- the descriptor goes from the held ones to the used ones
    have hmove : (s.held.eraseIdx k ++ [id]).Perm s.held := by
      refine (List.perm_append_singleton _ _).trans ?_
      obtain ⟨hlt, rfl⟩ := List.getElem?_eq_some_iff.mp hk
      exact List.getElem_cons_eraseIdx_perm hlt
    have hback : id.toUInt32.toUInt16 = id := UInt16.toUInt16_toUInt32 id
    refine List.Perm.trans ?_ h.perm
    dsimp only
    rw [hids, List.map_append, List.map_singleton, hback, List.append_assoc, List.append_assoc]
    refine List.Perm.append_left _ ?_
    refine (List.Perm.append_left _ (List.perm_append_comm)).trans ?_
    rw [← List.append_assoc]
    exact List.Perm.append_right _ hmove
  · rw [hsettled, lastValue_concat, ← h.x]
    rfl
  · rw [hsettled, lastValue_concat, ← h.y]
    rfl
  · rw [hsettled, lastValue_concat, ← h.left]
    rfl
  · rw [hsettled, lastValue_concat, ← h.right]
    rfl
  · intro hpeak
    have hlow : s.peak ≤ 127 := (le_max_left _ _).trans hpeak
    have hstep : (s.steps + wheelDelta ev).natAbs ≤ 127 := (le_max_right _ _).trans hpeak
    have hbyte : WheelByte (s.steps + wheelDelta ev) := by
      unfold WheelByte
      omega
    dsimp only
    rw [hsettled]
    exact (congrArg (fun w => clampWheel (w + wheelDelta ev)) (h.wheel hlow)).trans
      (clampWheel_of_byte hbyte)

theorem foldl_next_byte (evs : List VtEvent) {p : Pointer} (h : WheelByte p.wheel) :
    WheelByte (evs.foldl Pointer.next p).wheel := by
  induction evs generalizing p with
  | nil => exact h
  | cons ev evs ih => exact ih (wheelByte_clampWheel _)

/-- **A poll.** -/
theorem VtSys.Inv.poll (h : s.Inv d maxX maxY) (hfits : WheelFits s.dev.wheel s.dev.pending) :
    ∃ dev, virtioTabletPoll s.dev = some dev ∧ VtSys.Inv d maxX maxY { s with dev := dev } ∧
      dev.pointer = s.dev.settled ∧
      dev.free s.taken = s.free ++ s.dev.pendingIds.map UInt32.toUInt16 ∧ dev.pendingIds = [] := by
  have hrun := vtPollLoop_eq s.taken s.dev h.byte h.room
  rw [if_pos hfits] at hrun
  obtain ⟨dev, hloop, hp⟩ := hrun
  have hnone : dev.pendingIds = [] := by
    rw [VtDev.pendingIds, hp.lastUsed, hp.usedIdx, window_self]
  have hsettled : dev.settled = s.dev.settled := by
    rw [VtDev.settled, VtDev.pending, hnone]
    exact hp.pointer
  have hbyte : WheelByte dev.wheel := by
    have hwheel : dev.wheel = s.dev.settled.wheel := congrArg Pointer.wheel hp.pointer
    rw [hwheel, VtDev.settled]
    exact foldl_next_byte _ h.byte
  refine ⟨dev, ?_, ?_, hp.pointer, hp.free, hnone⟩
  · rw [virtioTabletPoll, if_pos h.ready]
    exact hloop
  · refine ⟨hp.ready.trans h.ready, hp.maxX.trans h.max_x, hp.maxY.trans h.max_y, hp.availPub h.pub,
      hbyte, ?_, ?_, ?_, ?_, ?_, ?_⟩
    · refine List.Perm.trans ?_ h.perm
      dsimp only
      rw [hnone, List.map_nil, List.append_nil, VtSys.free, hp.free, List.append_assoc,
        List.append_assoc]
      exact List.Perm.append_left _ List.perm_append_comm
    · rw [hsettled, h.x]
    · rw [hsettled, h.y]
    · rw [hsettled, h.left]
    · rw [hsettled, h.right]
    · intro hpeak
      rw [hsettled]
      exact h.wheel hpeak

/-! ## A step -/

/-- What a step, or a run, leaves behind. -/
structure StepDone (d : VtDev) (maxX maxY : ℤ) (s s' : VtSys) (shots : List VtShot) : Prop where
  inv : s'.Inv d maxX maxY
  right : ∀ shot ∈ shots, shot.Right d maxX maxY
  peak : s.peak ≤ s'.peak
  sum : s'.peak ≤ 127 → returned shots + s'.steps = s.steps + (wheelSum s'.told - wheelSum s.told)

/-- A step without a sample that tells nothing. -/
theorem StepDone.silent (h : s'.Inv d maxX maxY) (hpeak : s'.peak = s.peak)
    (hsteps : s'.steps = s.steps) (htold : s'.told = s.told) : StepDone d maxX maxY s s' [] := by
  refine ⟨h, by simp, hpeak.ge, ?_⟩
  intro _
  rw [hsteps, htold, sub_self, add_zero]
  exact zero_add _

/-- The system after a sample that polled the driver. -/
def VtSys.sampled (s : VtSys) (dev : VtDev) (wheel : Bool) : VtSys :=
  { s with
    dev := { dev with wheel := if wheel then 0 else dev.wheel, moved := false }
    steps := if wheel then 0 else s.steps }

/-- **A sample of a screen.** -/
theorem VtSys.Inv.sample (h : s.Inv d maxX maxY) {w ht : UInt32} (hw : 2 ≤ w) (hh : 2 ≤ ht)
    (buttons wheel : Bool) (hfits : WheelFits s.dev.wheel s.dev.pending) :
    ∃ dev : VtDev, dev.pointer = s.dev.settled ∧
      vtStep s (.sample w ht buttons wheel) = some (s.sampled dev wheel,
          [⟨s.told, s.steps, s.peak, w, ht,
            axisPixel (lastValue (axisOf 0) 0 s.told) maxX w,
            axisPixel (lastValue (axisOf 1) 0 s.told) maxY ht,
            if buttons then some dev.buttons else none, if wheel then some dev.wheel else none⟩]) ∧
      (s.sampled dev wheel).Inv d maxX maxY := by
  obtain ⟨dev, hpoll, hinv, hpointer, _, hnone⟩ := h.poll hfits
  have hx : dev.absX = lastValue (axisOf 0) 0 s.told := (congrArg Pointer.x hpointer).trans h.x
  have hy : dev.absY = lastValue (axisOf 1) 0 s.told := (congrArg Pointer.y hpointer).trans h.y
  refine ⟨dev, hpointer, ?_, ?_⟩
  · rw [vtStep, virtioTabletSample, if_neg (h.gate hw hh), hpoll, ← hx, ← hy, ← hinv.max_x, ← hinv.max_y]
    rfl
  · cases wheel with
    | false => exact ⟨hinv.ready, hinv.max_x, hinv.max_y, hinv.pub, hinv.byte, hinv.perm, hinv.x,
        hinv.y, hinv.left, hinv.right, hinv.wheel⟩
    | true =>
      have hsettled : ∀ dev' : VtDev, dev'.pendingIds = [] → dev'.settled = dev'.pointer := by
        intro dev' hnil
        rw [VtDev.settled, VtDev.pending, hnil]
        rfl
      have hdev := hsettled dev hnone
      have hzero := hsettled { dev with wheel := 0, moved := false } hnone
      have hbyte : WheelByte 0 := ⟨by decide, by decide⟩
      refine ⟨hinv.ready, hinv.max_x, hinv.max_y, hinv.pub, hbyte, hinv.perm, ?_, ?_, ?_, ?_, ?_⟩
      · exact (congrArg Pointer.x hzero).trans ((congrArg Pointer.x hdev).symm.trans hinv.x)
      · exact (congrArg Pointer.y hzero).trans ((congrArg Pointer.y hdev).symm.trans hinv.y)
      · exact (congrArg Pointer.left hzero).trans ((congrArg Pointer.left hdev).symm.trans hinv.left)
      · exact (congrArg Pointer.right hzero).trans
          ((congrArg Pointer.right hdev).symm.trans hinv.right)
      · intro _
        exact congrArg Pointer.wheel hzero

/-- The gate of a sample. -/
theorem vtStep_small (h : ¬(2 ≤ w ∧ 2 ≤ ht)) (buttons wheel : Bool) :
    vtStep s (.sample w ht buttons wheel) = some (s, []) := by
  have hgate : s.dev.ready = false ∨ w < 2 ∨ ht < 2 := by
    rw [not_and_or, UInt32.not_le, UInt32.not_le] at h
    exact Or.inr h
  rw [vtStep, virtioTabletSample, if_pos hgate]
  rfl

/-- **A step that has what it needs.** -/
theorem vtStep_fits (h : s.Inv d maxX maxY) (hfits : StepFits s a) :
    ∃ s' shots, vtStep s a = some (s', shots) ∧ StepDone d maxX maxY s s' shots := by
  cases a with
  | take =>
    by_cases htaken : s.taken = s.dev.availPub
    · exact ⟨s, [], if_pos htaken, .silent h rfl rfl rfl⟩
    · exact ⟨_, [], if_neg htaken, .silent (h.take htaken) rfl rfl rfl⟩
  | report k ev =>
    rcases hk : s.held[k]? with _ | id
    · exact ⟨s, [], by rw [vtStep, hk], .silent h rfl rfl rfl⟩
    · refine ⟨_, [], by rw [vtStep, hk], h.report ev hk, by simp, le_max_left _ _, ?_⟩
      intro _
      dsimp only
      rw [wheelSum_concat, returned, List.filterMap_nil, List.sum_nil]
      omega
  | poll =>
    obtain ⟨dev, hpoll, hinv, _⟩ := h.poll hfits
    exact ⟨_, [], by rw [vtStep, hpoll]; rfl, .silent hinv rfl rfl rfl⟩
  | sample w ht buttons wheel =>
    by_cases hsize : 2 ≤ w ∧ 2 ≤ ht
    · obtain ⟨hwheel, hx, hy⟩ := hfits hsize.1 hsize.2
      obtain ⟨dev, hpointer, hrun, hinv⟩ := h.sample hsize.1 hsize.2 buttons wheel hwheel
      rw [h.max_x] at hx
      rw [h.max_y] at hy
      have hsteps : s.peak ≤ 127 → dev.wheel = s.steps := fun hpeak =>
        (congrArg Pointer.wheel hpointer).trans (h.wheel hpeak)
      refine ⟨_, _, hrun, hinv, ?_, le_rfl, ?_⟩
      · intro shot hmem
        rw [List.mem_singleton] at hmem
        subst hmem
        refine ⟨(axisPixel_eq_iff _ _ hsize.1).mpr hx, (axisPixel_eq_iff _ _ hsize.2).mpr hy, ?_, ?_⟩
        · intro b hb
          cases buttons with
          | false => cases hb
          | true =>
            obtain rfl := Option.some.inj hb
            exact ⟨(congrArg Pointer.left hpointer).trans h.left,
              (congrArg Pointer.right hpointer).trans h.right⟩
        · intro hpeak n hn
          cases wheel with
          | false => cases hn
          | true =>
            obtain rfl := Option.some.inj hn
            exact hsteps hpeak
      · intro hpeak
        have hdev := hsteps hpeak
        cases wheel with
        | false => simp [returned, VtSys.sampled]
        | true => simp [returned, VtSys.sampled, hdev]
    · exact ⟨s, [], vtStep_small hsize buttons wheel, .silent h rfl rfl rfl⟩

/-- **A step that has not.** -/
theorem vtStep_not_fits (h : s.Inv d maxX maxY) (hfits : ¬StepFits s a) {r : VtSys × List VtShot}
    (hr : vtStep s a = some r) : ¬∀ shot ∈ r.2, shot.Right d maxX maxY := by
  cases a with
  | take => exact absurd trivial hfits
  | report k ev => exact absurd trivial hfits
  | poll =>
    rw [vtStep, h.poll_none hfits] at hr
    cases hr
  | sample w ht buttons wheel =>
    simp only [StepFits, Classical.not_imp] at hfits
    obtain ⟨hw, hh, hnot⟩ := hfits
    by_cases hwheel : WheelFits s.dev.wheel s.dev.pending
    · obtain ⟨dev, _, hrun, _⟩ := h.sample hw hh buttons wheel hwheel
      rw [hrun] at hr
      obtain rfl := Option.some.inj hr
      intro hright
      have hshot := hright _ List.mem_cons_self
      have hx := (axisPixel_eq_iff _ _ hw).mp hshot.x
      have hy := (axisPixel_eq_iff _ _ hh).mp hshot.y
      rw [← h.max_x] at hx
      rw [← h.max_y] at hy
      exact hnot ⟨hwheel, hx, hy⟩
    · rw [vtStep, virtioTabletSample, if_neg (h.gate hw hh), h.poll_none hwheel] at hr
      cases hr

/-! ## A run -/

theorem StepDone.trans {s'' : VtSys} {more : List VtShot} (h : StepDone d maxX maxY s s' shots)
    (h' : StepDone d maxX maxY s' s'' more) : StepDone d maxX maxY s s'' (shots ++ more) := by
  refine ⟨h'.inv, ?_, h.peak.trans h'.peak, ?_⟩
  · intro shot hmem
    rcases List.mem_append.mp hmem with hmem | hmem
    · exact h.right shot hmem
    · exact h'.right shot hmem
  · intro hpeak
    have h1 := h.sum (h'.peak.trans hpeak)
    have h2 := h'.sum hpeak
    have happ : returned (shots ++ more) = returned shots + returned more := by
      rw [returned, List.filterMap_append, List.sum_append]
      rfl
    rw [happ]
    linarith

/-- **A run whose steps have what they need.** -/
theorem vtRun_fits (h : s.Inv d maxX maxY) (hfits : RunFits s acts) :
    ∃ s' shots, vtRun s acts = some (s', shots) ∧ StepDone d maxX maxY s s' shots := by
  induction acts generalizing s with
  | nil => exact ⟨s, [], rfl, .silent h rfl rfl rfl⟩
  | cons a acts ih =>
    obtain ⟨s1, shots1, hstep, hdone⟩ := vtStep_fits h hfits.1
    obtain ⟨s2, shots2, hrun, hrest⟩ := ih hdone.inv (hfits.2 _ hstep)
    refine ⟨s2, shots1 ++ shots2, ?_, hdone.trans hrest⟩
    rw [vtRun, hstep, Option.bind_some]
    dsimp only
    rw [hrun]
    rfl

/-- **A run that is right had what its steps need.** -/
theorem vtRun_right (h : s.Inv d maxX maxY) (hrun : vtRun s acts = some (s', shots))
    (hright : ∀ shot ∈ shots, shot.Right d maxX maxY) : RunFits s acts := by
  induction acts generalizing s shots with
  | nil => trivial
  | cons a acts ih =>
    rw [vtRun] at hrun
    obtain ⟨⟨s1, shots1⟩, hstep, hrest⟩ := Option.bind_eq_some_iff.mp hrun
    obtain ⟨⟨s2, shots2⟩, hmore, heq⟩ := Option.map_eq_some_iff.mp hrest
    obtain ⟨rfl, rfl⟩ := Prod.mk.inj heq
    have hfits : StepFits s a := by
      by_contra hno
      exact vtStep_not_fits h hno hstep fun shot hmem => hright shot (List.mem_append_left _ hmem)
    obtain ⟨s1', shots1', hstep', hdone⟩ := vtStep_fits h hfits
    obtain ⟨rfl, rfl⟩ := Prod.mk.inj (Option.some.inj (hstep.symm.trans hstep'))
    refine ⟨hfits, ?_⟩
    intro r hr
    obtain rfl := Option.some.inj (hstep.symm.trans hr)
    exact ih hdone.inv hmore fun shot hmem => hright shot (List.mem_append_right _ hmem)

theorem VtSys.Inv.conserved (h : s.Inv d maxX maxY) : s.Conserved := by
  refine ⟨h.perm, ?_⟩
  intro dev hdev
  by_cases hfits : WheelFits s.dev.wheel s.dev.pending
  · obtain ⟨dev', hpoll, _, _, hfree, hnone⟩ := h.poll hfits
    obtain rfl := Option.some.inj (hdev.symm.trans hpoll)
    exact ⟨hfree, hnone⟩
  · rw [h.poll_none hfits] at hdev
    cases hdev

/-- **The pointer is faithful exactly when in every sample the quotients fit and the wheel never
overflows; the pixel of an axis grows with the axis and is on the screen.** -/
theorem tabletFaithful_iff (d : VtDev) (maxX maxY : ℤ) (hw : WheelByte d.wheel)
    (acts : List VtAct) :
    (TabletFaithful d maxX maxY acts ↔ RunFits (vtStart d maxX maxY) acts) ∧
      ∀ max size, 2 ≤ size → (Monotone fun v => axisTarget v max size) ∧
        ∀ v, 0 ≤ axisTarget v max size ∧ axisTarget v max size < size.toNat := by
  have hstart := vtStart_inv d maxX maxY hw
  refine ⟨⟨?_, ?_⟩, fun max size h => ⟨axisTarget_mono max h, fun v => axisTarget_mem v max h⟩⟩
  · rintro ⟨s, shots, hrun, hright, _⟩
    exact vtRun_right hstart hrun hright
  · intro hfits
    obtain ⟨s, shots, hrun, hdone⟩ := vtRun_fits hstart hfits
    refine ⟨s, shots, hrun, hdone.right, ?_, hdone.inv.conserved⟩
    intro hpeak
    have hsum := hdone.sum hpeak
    have hsteps : (vtStart d maxX maxY).steps = d.wheel := rfl
    have htold : wheelSum (vtStart d maxX maxY).told = 0 := rfl
    rw [hsteps, htold, sub_zero] at hsum
    exact hsum

/-- A driver before its first start. -/
def vtZero : VtDev :=
  ⟨fun _ => 0, 0, fun _ => 0, 0, fun _ => ⟨0, 0, 0⟩, 0, 0, 0, 0, 0, 0, 0, false, false, 0⟩

/-- A move, a click and a step of the wheel. -/
theorem tabletFaithful_click :
    TabletFaithful vtZero 0x7fff 0x7fff [.take, .report 0 ⟨3, 0, 16384⟩, .take,
      .report 0 ⟨1, 0x110, 1⟩, .take, .report 0 ⟨2, 8, 0xFFFFFFFF⟩, .sample 1024 768 true true] :=
  (tabletFaithful_iff vtZero 0x7fff 0x7fff ⟨by decide, by decide⟩ _).1.mpr (by decide +kernel)

/-- An axis at -32768 is shown at the right border. -/
theorem negative_axis_right : ¬TabletFaithful vtZero 0x7fff 0x7fff
    [.take, .report 0 ⟨3, 0, 0xFFFF8000⟩, .sample 1024 768 true true] := by
  rintro ⟨s, shots, hrun, hright, _⟩
  have hfits := vtRun_right (vtStart_inv vtZero 0x7fff 0x7fff ⟨by decide, by decide⟩) hrun hright
  revert hfits
  decide +kernel

end ZealBringup.Input
