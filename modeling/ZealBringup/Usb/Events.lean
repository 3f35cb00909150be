import ZealBringup.Usb.RingOrder

/-!
# The event ring

`usb_events` of `usb_xhci.h` on the ring of 256 events that the controller posts to.

* `usbEvent` — what an event does to the controller's record; what a transfer event does to the
  devices is a parameter.
* `usbEventsRound`, `usbEvents` — a round of the loop and the function, with the events handled.
* `EventReach` — the states of a ring whose posts and rounds come in any order.
* `EventInv` — the invariant of these states.
-/

namespace ZealBringup.Usb

open CycleRing

/-! ## The function -/

/-- `USB_EVENTS`. -/
abbrev usbEventCount : ℕ := 256

/-- The fields of `struct usb_hc` that events are about, the register of the dequeue pointer,
`g_usb.errors` and the devices. -/
structure UsbHc (δ : Type) where
  events : ℕ
  eventDequeue : ℕ
  eventCycle : Bool
  erdp : ℕ
  running : Bool
  error : ℕ
  errors : ℕ
  commandPending : ℕ
  commandDone : ℕ
  commandCode : ℕ
  commandSlot : ℕ
  eventCount : ℕ
  portChanges : ℕ
  devices : δ

variable {δ : Type}

/-- What an event does. -/
def usbEvent (transfer : UsbTrb → δ → δ) (e : UsbTrb) (hc : UsbHc δ) : UsbHc δ :=
  let type := trbType e.control
  let code := e.status >>> 24
  let slot := e.control >>> 24
  let hc := { hc with eventCount := hc.eventCount + 1 }
  if type = 33 ∧ e.parameter = hc.commandPending then
    { hc with commandDone := 1, commandCode := code, commandSlot := slot }
  else if type = 32 then { hc with devices := transfer e hc.devices }
  else if type = 34 then { hc with portChanges := hc.portChanges + 1 }
  else if type = 37 then
    { hc with error := code, errors := hc.errors + 1, running := false }
  else hc

/-- The dequeue pointer and its cycle move on. -/
def nextEvent (hc : UsbHc δ) : UsbHc δ :=
  let moved :=
    if hc.eventDequeue + 1 = usbEventCount then
      { hc with eventDequeue := 0, eventCycle := !hc.eventCycle }
    else { hc with eventDequeue := hc.eventDequeue + 1 }
  { moved with erdp := trbAddress moved.events moved.eventDequeue ||| 8 }

/-- A round of the loop and the event that it handles, none where the loop breaks before. -/
def usbEventsRound (transfer : UsbTrb → δ → δ) (ring : ℕ → UsbTrb) (hc : UsbHc δ) :
    Option (UsbHc δ × UsbTrb) :=
  let e := ring hc.eventDequeue
  if e.control % 2 ≠ hc.eventCycle.toNat then none
  else some (nextEvent (usbEvent transfer e hc), e)

/-- The loop with so many rounds left. -/
def usbEventsLoop (transfer : UsbTrb → δ → δ) (ring : ℕ → UsbTrb) :
    ℕ → UsbHc δ → UsbHc δ × List UsbTrb
  | 0, hc => (hc, [])
  | work + 1, hc =>
      match usbEventsRound transfer ring hc with
      | none => (hc, [])
      | some (hc, e) =>
          if hc.running = false then (hc, [e])
          else ((usbEventsLoop transfer ring work hc).1,
            e :: (usbEventsLoop transfer ring work hc).2)

/-- `usb_events`. -/
def usbEvents (transfer : UsbTrb → δ → δ) (ring : ℕ → UsbTrb) (hc : UsbHc δ) :
    UsbHc δ × List UsbTrb :=
  if hc.running = false then (hc, []) else usbEventsLoop transfer ring usbEventCount hc

/-! ## Runs -/

/-- An event ring: the place and cycle of the controller, and the events posted and handled. -/
structure EventState (δ : Type) where
  ring : ℕ → UsbTrb
  enqueue : ℕ
  cycle : Bool
  hc : UsbHc δ
  posted : List UsbTrb
  handled : List UsbTrb

/-- The controller posts an event. -/
def EventState.post (s : EventState δ) (e : UsbTrb) : EventState δ :=
  let e := { e with control := withCycle e.control s.cycle }
  { s with
    ring := Function.update s.ring s.enqueue e
    enqueue := if s.enqueue + 1 = usbEventCount then 0 else s.enqueue + 1
    cycle := if s.enqueue + 1 = usbEventCount then !s.cycle else s.cycle
    posted := s.posted ++ [e] }

/-- The state behind some work of `usb_events`. -/
def EventState.work (s : EventState δ) (done : UsbHc δ × List UsbTrb) : EventState δ :=
  { s with hc := done.1, handled := s.handled ++ done.2 }

/-- The states of an event ring. The controller posts where at most 256 events are left that are not
handled, and the loop runs while the controller does. -/
inductive EventReach (transfer : UsbTrb → δ → δ) : EventState δ → Prop where
  | start {ring : ℕ → UsbTrb} {hc : UsbHc δ} (hring : ∀ i < usbEventCount, ring i = ⟨0, 0, 0⟩)
      (hdequeue : hc.eventDequeue = 0) (hcycle : hc.eventCycle = true) :
      EventReach transfer ⟨ring, 0, true, hc, [], []⟩
  | post {s : EventState δ} (e : UsbTrb) (h : EventReach transfer s)
      (hroom : s.posted.length + 1 ≤ s.handled.length + 256) : EventReach transfer (s.post e)
  | round {s : EventState δ} {hc : UsbHc δ} {e : UsbTrb} (h : EventReach transfer s)
      (hrunning : s.hc.running = true)
      (hround : usbEventsRound transfer s.ring s.hc = some (hc, e)) :
      EventReach transfer (s.work (hc, [e]))

/-! ## The invariant -/

variable {transfer : UsbTrb → δ → δ} {s : EventState δ} {hc : UsbHc δ} {e : UsbTrb}

/-- The slots by the number of events posted, and where the reader is. -/
structure EventInv (s : EventState δ) : Prop where
  enqueue : s.enqueue = s.posted.length % 256
  cycle : s.cycle = lapBit 256 s.posted.length
  order : s.handled = s.posted.take s.handled.length
  visible : s.handled.length ≤ s.posted.length
  room : s.posted.length ≤ s.handled.length + 256
  bits : ∀ i < 256, (s.ring i).control % 2 = (slotBit 256 s.posted.length i).toNat
  holds : ∀ k, s.handled.length ≤ k → k < s.posted.length →
    s.posted[k]? = some (s.ring (k % 256))
  dequeue : s.hc.eventDequeue = s.handled.length % 256
  eventCycle : s.hc.eventCycle = lapBit 256 s.handled.length

theorem next_slot (k : ℕ) :
    (if k % 256 + 1 = usbEventCount then 0 else k % 256 + 1) = (k + 1) % 256 ∧
      (if k % 256 + 1 = usbEventCount then !lapBit 256 k else lapBit 256 k) =
        lapBit 256 (k + 1) := by
  by_cases hlap : (k + 1) % 256 = 0
  · have hend : k % 256 + 1 = usbEventCount := by
      rw [usbEventCount]
      omega
    rw [if_pos hend, if_pos hend, hlap, lapBit_succ_of_mod_eq_zero hlap]
    exact ⟨rfl, rfl⟩
  · have hend : ¬k % 256 + 1 = usbEventCount := by
      rw [usbEventCount]
      omega
    rw [if_neg hend, if_neg hend, lapBit_succ hlap]
    exact ⟨by omega, rfl⟩

theorem start_inv {ring : ℕ → UsbTrb} (hring : ∀ i < usbEventCount, ring i = ⟨0, 0, 0⟩)
    (hdequeue : hc.eventDequeue = 0) (hcycle : hc.eventCycle = true) :
    EventInv (⟨ring, 0, true, hc, [], []⟩ : EventState δ) where
  enqueue := rfl
  cycle := (lapBit_zero 256).symm
  order := rfl
  visible := Nat.le_refl 0
  room := Nat.zero_le _
  bits := fun i hi => congrArg (fun t => t.control % 2) (hring i hi)
  holds := fun k _ hk => absurd hk (Nat.not_lt_zero k)
  dequeue := hdequeue
  eventCycle := hcycle.trans (lapBit_zero 256).symm

theorem EventInv.post (h : EventInv s) (e : UsbTrb)
    (hroom : s.posted.length + 1 ≤ s.handled.length + 256) : EventInv (s.post e) := by
  obtain ⟨hslot, hbit⟩ := next_slot s.posted.length
  have hlength : (s.post e).posted.length = s.posted.length + 1 := by
    rw [EventState.post, List.length_append, List.length_singleton]
  have hring : ∀ i, i ≠ s.posted.length % 256 → (s.post e).ring i = s.ring i := fun i hi => by
    rw [EventState.post, h.enqueue]
    exact Function.update_of_ne hi _ _
  have hnew : (s.post e).ring (s.posted.length % 256) =
      { e with control := withCycle e.control s.cycle } := by
    rw [EventState.post, h.enqueue]
    exact Function.update_self _ _ _
  have hhandled : (s.post e).handled = s.handled := rfl
  refine ⟨?_, ?_, ?_, ?_, ?_, fun i hi => ?_, fun k hk hkd => ?_, h.dequeue, h.eventCycle⟩
  · rw [hlength, ← hslot, EventState.post, h.enqueue]
  · rw [hlength, ← hbit, EventState.post, h.enqueue, h.cycle]
  · have horder := h.order
    rw [← List.take_append_of_le_length h.visible] at horder
    exact horder
  · rw [hlength, hhandled]
    exact Nat.le_succ_of_le h.visible
  · rw [hlength, hhandled]
    exact hroom
  · rw [hlength, slotBit_succ]
    by_cases hi' : i = s.posted.length % 256
    · rw [if_pos hi', hi', hnew, withCycle_mod, h.cycle]
    · rw [if_neg hi', hring i hi']
      exact h.bits i hi
  · rw [hlength] at hkd
    rw [hhandled] at hk
    rcases Nat.lt_succ_iff_lt_or_eq.1 hkd with hkd | rfl
    · have hother : k % 256 ≠ s.posted.length % 256 := mod_ne_of_lt hkd (by omega)
      rw [hring _ hother, EventState.post, List.getElem?_append_left hkd]
      exact h.holds k hk hkd
    · rw [hnew, EventState.post, List.getElem?_concat_length]

theorem usbEvent_ring (transfer : UsbTrb → δ → δ) (e : UsbTrb) (hc : UsbHc δ) :
    (usbEvent transfer e hc).eventDequeue = hc.eventDequeue ∧
      (usbEvent transfer e hc).eventCycle = hc.eventCycle := by
  rw [usbEvent]
  dsimp only
  split_ifs <;> exact ⟨rfl, rfl⟩

theorem nextEvent_eq (hc : UsbHc δ) {k : ℕ} (hdequeue : hc.eventDequeue = k % 256)
    (hcycle : hc.eventCycle = lapBit 256 k) :
    (nextEvent hc).eventDequeue = (k + 1) % 256 ∧
      (nextEvent hc).eventCycle = lapBit 256 (k + 1) := by
  obtain ⟨hslot, hbit⟩ := next_slot k
  rw [← hslot, ← hbit, nextEvent, hdequeue]
  dsimp only
  split
  · exact ⟨rfl, congrArg Bool.not hcycle⟩
  · exact ⟨rfl, hcycle⟩

/-- A round handles the next event, if there is one. -/
theorem usbEventsRound_eq (h : EventInv s) :
    usbEventsRound transfer s.ring s.hc =
      if s.handled.length < s.posted.length then
        some (nextEvent (usbEvent transfer (s.ring (s.handled.length % 256)) s.hc),
          s.ring (s.handled.length % 256))
      else none := by
  have hbits := h.bits (s.handled.length % 256) (Nat.mod_lt _ (by decide))
  have hiff := slotBit_eq_iff (n := 256) (by decide) h.visible h.room
  rw [usbEventsRound, h.dequeue, h.eventCycle, hbits]
  by_cases hnew : s.handled.length < s.posted.length
  · rw [if_pos hnew, hiff.2 hnew, if_neg (not_not.2 rfl)]
  · have hother : (slotBit 256 s.posted.length (s.handled.length % 256)).toNat ≠
        (lapBit 256 s.handled.length).toNat := by
      rw [toNat_ne_iff]
      exact fun heq => hnew (hiff.1 heq)
    rw [if_neg hnew, if_pos hother]

/-- A round takes the next event of those posted. -/
theorem EventInv.round (h : EventInv s)
    (hround : usbEventsRound transfer s.ring s.hc = some (hc, e)) :
    EventInv (s.work (hc, [e])) ∧ s.posted[s.handled.length]? = some e ∧
      hc = nextEvent (usbEvent transfer e s.hc) := by
  rw [usbEventsRound_eq h] at hround
  split at hround
  · next hnew =>
    obtain ⟨rfl, rfl⟩ := Prod.mk.inj (Option.some.inj hround)
    have hitem := h.holds s.handled.length (Nat.le_refl _) hnew
    obtain ⟨hdequeue, hcycle⟩ := usbEvent_ring transfer (s.ring (s.handled.length % 256)) s.hc
    obtain ⟨hdequeue', hcycle'⟩ := nextEvent_eq
      (usbEvent transfer (s.ring (s.handled.length % 256)) s.hc)
      (hdequeue.trans h.dequeue) (hcycle.trans h.eventCycle)
    have hlength : (s.work (nextEvent (usbEvent transfer (s.ring (s.handled.length % 256)) s.hc),
        [s.ring (s.handled.length % 256)])).handled.length = s.handled.length + 1 := by
      rw [EventState.work, List.length_append, List.length_singleton]
    refine ⟨⟨h.enqueue, h.cycle, ?_, ?_, ?_, h.bits, ?_, ?_, ?_⟩, hitem, rfl⟩ <;> rw [hlength]
    · have horder := h.order
      rw [EventState.work]
      dsimp only
      rw [List.take_add_one, hitem, ← horder]
      rfl
    · exact hnew
    · exact Nat.le_succ_of_le h.room
    · exact fun k hk hkd => h.holds k (Nat.le_of_succ_le hk) hkd
    · exact hdequeue'
    · exact hcycle'
  · cases hround

/-- **Every reachable state of an event ring has the invariant.** -/
theorem EventReach.inv (h : EventReach transfer s) : EventInv s := by
  induction h with
  | start hring hdequeue hcycle => exact start_inv hring hdequeue hcycle
  | post e _ hroom ih => exact ih.post e hroom
  | round _ _ hround ih => exact (ih.round hround).1

/-! ## A call -/

theorem EventState.work_work (s : EventState δ) (hc hc' : UsbHc δ) (es es' : List UsbTrb) :
    (s.work (hc, es)).work (hc', es') = s.work (hc', es ++ es') := by
  simp [EventState.work, List.append_assoc]

theorem usbEventsLoop_reach (work : ℕ) (h : EventReach transfer s)
    (hrunning : s.hc.running = true) :
    EventReach transfer (s.work (usbEventsLoop transfer s.ring work s.hc)) := by
  induction work generalizing s with
  | zero => simpa [usbEventsLoop, EventState.work] using h
  | succ work ih =>
    rw [usbEventsLoop]
    cases hround : usbEventsRound transfer s.ring s.hc with
    | none => simpa [EventState.work] using h
    | some r =>
      obtain ⟨hc, e⟩ := r
      have hreach := h.round hrunning hround
      dsimp only
      cases hstop : hc.running with
      | false =>
        rw [if_pos rfl]
        exact hreach
      | true =>
        rw [if_neg (by decide)]
        have hrest := ih hreach hstop
        rwa [EventState.work_work] at hrest

theorem usbEvents_reach (h : EventReach transfer s) :
    EventReach transfer (s.work (usbEvents transfer s.ring s.hc)) := by
  rw [usbEvents]
  cases hrunning : s.hc.running with
  | false =>
    rw [if_pos rfl]
    simpa [EventState.work] using h
  | true =>
    rw [if_neg (by decide)]
    exact usbEventsLoop_reach usbEventCount h hrunning

/-- Only an event of the host controller stops it. -/
theorem usbEvent_running (he : trbType e.control ≠ 37) :
    (nextEvent (usbEvent transfer e hc)).running = hc.running := by
  have hevent : (usbEvent transfer e hc).running = hc.running := by
    rw [usbEvent]
    dsimp only
    split_ifs <;> rfl
  rw [← hevent, nextEvent]
  dsimp only
  split <;> rfl

/-- The loop handles all events that are posted, if none of them stops the controller. -/
theorem usbEventsLoop_drains {work : ℕ} (h : EventInv s) (hrunning : s.hc.running = true)
    (hwork : s.posted.length ≤ s.handled.length + work)
    (hall : ∀ e ∈ s.posted.drop s.handled.length, trbType e.control ≠ 37) :
    (usbEventsLoop transfer s.ring work s.hc).2 = s.posted.drop s.handled.length := by
  induction work generalizing s with
  | zero =>
    rw [Nat.add_zero] at hwork
    rw [usbEventsLoop, List.drop_of_length_le hwork]
  | succ work ih =>
    rw [usbEventsLoop]
    cases hround : usbEventsRound transfer s.ring s.hc with
    | none =>
      rw [usbEventsRound_eq h] at hround
      split at hround
      · cases hround
      · next hnew => rw [List.drop_of_length_le (Nat.le_of_not_lt hnew)]
    | some r =>
      obtain ⟨hc, e⟩ := r
      obtain ⟨hinv, hitem, hhc⟩ := h.round hround
      have hrest : s.posted.drop s.handled.length = e :: s.posted.drop (s.handled.length + 1) := by
        obtain ⟨hlt, hget⟩ := List.getElem?_eq_some_iff.1 hitem
        rw [List.drop_eq_getElem_cons hlt, hget]
      have hlength : (s.work (hc, [e])).handled.length = s.handled.length + 1 := by
        rw [EventState.work, List.length_append, List.length_singleton]
      rw [hrest] at hall ⊢
      have hrunning' : hc.running = true := by
        rw [hhc, usbEvent_running (hall e (List.mem_cons_self ..))]
        exact hrunning
      have hwork' : s.posted.length ≤ s.handled.length + 1 + work := by omega
      have hloop := ih hinv hrunning' (by rw [hlength]; exact hwork')
        (by rw [hlength]; exact fun e' he' => hall e' (List.mem_cons_of_mem e he'))
      rw [hlength] at hloop
      dsimp only
      rw [hrunning', if_neg (by decide)]
      exact congrArg (e :: ·) hloop

/-- **A call handles all that is posted.** -/
theorem usbEvents_drains (h : EventInv s) (hrunning : s.hc.running = true)
    (hall : ∀ e ∈ s.posted.drop s.handled.length, trbType e.control ≠ 37) :
    (usbEvents transfer s.ring s.hc).2 = s.posted.drop s.handled.length := by
  rw [usbEvents, hrunning, if_neg (by decide)]
  exact usbEventsLoop_drains h hrunning h.room hall

/-! ## Both rings -/

/-- **The rings lose, repeat and reorder nothing.** On a producer ring the controller processes
exactly the TRBs put, in order and at the addresses returned, and between puts it gets to their end.
On the event ring the loop handles exactly the events posted, in order, and a call handles all of
them, if none stops the controller. -/
theorem usb_rings_correct (trbs : ℕ) (transfer : UsbTrb → δ → δ) :
    (∀ s, RingReach trbs s → s.seen = s.puts.take s.seen.length ∧
      (s.pending = [] → ∃ n, (RingState.consume^[n] s).seen = s.puts)) ∧
    ∀ s, EventReach transfer s → s.handled = s.posted.take s.handled.length ∧
      EventReach transfer (s.work (usbEvents transfer s.ring s.hc)) ∧
      (s.hc.running = true → (∀ e ∈ s.posted.drop s.handled.length, trbType e.control ≠ 37) →
        (s.work (usbEvents transfer s.ring s.hc)).handled = s.posted) := by
  refine ⟨fun s h => ?_, fun s h => ⟨h.inv.order, usbEvents_reach h, fun hrunning hall => ?_⟩⟩
  · obtain ⟨d, w, hinv⟩ := h.inv
    exact ⟨hinv.order, hinv.drains⟩
  · rw [EventState.work]
    dsimp only
    rw [usbEvents_drains h.inv hrunning hall]
    have horder := h.inv.order
    calc s.handled ++ s.posted.drop s.handled.length
        = s.posted.take s.handled.length ++ s.posted.drop s.handled.length := by rw [← horder]
      _ = s.posted := List.take_append_drop ..

/-- A ring of zeros with one TRB of type 1 put, and its three stores done. -/
def onePut : RingState :=
  ((((ringStart (fun _ => ⟨0, 0, 0⟩) 0).put 5 6 1024).after (.parameter 0 5)
    [.status 0 6, .control 0 1025]).after (.status 0 6) [.control 0 1025]).after
      (.control 0 1025) []

/-- The TRB put is processed at its address. -/
theorem usb_rings_correct_one : ∃ n, (RingState.consume^[n] onePut).seen = [⟨0, 5, 6, 512⟩] := by
  have hstart : RingReach 0 (ringStart (fun _ => ⟨0, 0, 0⟩) 0) := .start _ fun _ _ => rfl
  have hput := hstart.put 5 6 1024 rfl (by decide) (by decide)
  have hreach : RingReach 0 onePut := .store (.store (.store hput rfl) rfl) rfl
  exact ((usb_rings_correct 0 fun _ (device : Unit) => device).1 onePut hreach).2 rfl

end ZealBringup.Usb
