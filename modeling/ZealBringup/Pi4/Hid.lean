import Mathlib.Data.Nat.Bitwise
import ZealBringup.Pi4.RingOrder
import ZealBringup.Usb.Decoders

/-!
# The HID devices of the bus

`pi4_usb_bus_completion`, `pi4_usb_bus_queue` and `pi4_usb_bus_dispatch` of `pi4_usb_bus.h` and
`pi4_usb_bus.inc`, with the decoders of `pi4_usb_keyboard.h` and `pi4_usb_mouse.h`.

* `busCompletion` — the owner of an event.
* `busQueue` — a TRB for the next report of a device.
* `busDispatch` — an event: its report is decoded and the next TRB is queued.
* `HidReach` — the runs of a bus, with the TRBs that were queued and those that were decoded.
* `HidSafe` — what holds in all states of a run.
-/

namespace ZealBringup.Pi4

open Stores
open ZealBringup.Usb (trbType pi4UsbKeyboardDecode KeyCall)

/-! ## Transfer events -/

/-- `pi4_xhci_dma_transfer_event_check_mask` -/
def transferEventCheckMask (e : Event) (trbBus slot endpoint : ℕ) : ℕ :=
  (if trbType e.control = trbTypeTransferEvt then 1 else 0) |||
    (if e.control / 2 ^ 16 % 32 = endpoint then 2 else 0) |||
    (if e.control / 2 ^ 24 % 256 = slot then 4 else 0) |||
    (if e.parameter / 16 = trbBus / 16 then 8 else 0) |||
    (if e.status / 2 ^ 24 = 1 ∧ e.status % 2 ^ 24 = 0 then 16 else 0)

/-- `pi4_xhci_dma_bulk_event_ok`: `*actual`, or none when it returns 0. -/
def bulkEventOk (e : Event) (trbBus slot dci requested allowShort : ℕ) : Option ℕ :=
  let code := e.status / 2 ^ 24
  let residual := e.status % 2 ^ 24
  if requested = 0 ∨ allowShort > 1 ∨ slot = 0 ∨ slot > 255 ∨ dci < 2 ∨ dci > 31 ∨
      e.control / 4 % 2 = 1 ∨ transferEventCheckMask e trbBus slot dci &&& 0x0f ≠ 0x0f ∨
      residual > requested ∨ ¬((code = 1 ∧ residual = 0) ∨ (allowShort ≠ 0 ∧ code = 13)) then none
  else some (requested - residual)

/-- `struct pi4_usb_bus_pending` -/
structure Pending where
  trb : ℕ
  slot : ℕ
  dci : ℕ
  requested : ℕ
  minimum : ℕ

/-- `PI4_USB_BUS_CHILDREN` -/
def busChildren : ℕ := 4

/-- `pi4_usb_bus_completion`: what it returns and `*actual`. -/
def busCompletion (pending : ℕ → Pending) (count : ℕ) (e : Event) : ℤ × ℕ :=
  if count > busChildren then (-1, 0)
  else if trbType e.control ≠ trbTypeTransferEvt then (0, 0)
  else
    match (List.range count).find? fun i => (pending i).trb ≠ 0 ∧ e.control / 2 ^ 24 = (pending i).slot ∧
      e.control / 2 ^ 16 % 32 = (pending i).dci with
    | none => (0, 0)
    | some i =>
      let p := pending i
      if p.minimum = 0 ∨ p.minimum > p.requested ∨ p.requested > 64 then (-1, 0)
      else
        match bulkEventOk e p.trb p.slot p.dci p.requested 1 with
        | none => (-1, 0)
        | some actual => if actual < p.minimum then (-1, actual) else ((i : ℤ) + 1, actual)

/-! ## Devices -/

/-- `struct pi4_usb_mouse_state` -/
structure MouseState where
  x : ℕ
  y : ℕ
  buttons : ℕ
  reports : ℕ
  moves : ℕ
  presses : ℕ
  releases : ℕ
  seenButtons : ℕ

/-- `pi4_usb_mouse_clamp` -/
def mouseClamp (value : ℤ) (dimension : ℕ) : ℕ :=
  if value < 0 then 0 else if value ≥ dimension then dimension - 1 else value.toNat

/-- A byte of a report as a signed number. -/
def signedByte (report : List UInt8) (i : ℕ) : ℤ :=
  let byte := (report.getD i 0).toNat
  if byte < 128 then byte else (byte : ℤ) - 256

/-- `pi4_usb_mouse_decode`: what it returns and the state. -/
def mouseDecode (s : MouseState) (report : List UInt8) (bytes width height : ℕ) : ℕ × MouseState :=
  if bytes < 3 ∨ bytes > 64 ∨ width = 0 ∨ height = 0 then (0, s)
  else
    let dx := signedByte report 1
    let dy := signedByte report 2
    let buttons := (report.getD 0 0).toNat % 8
    (1,
      { x := mouseClamp (s.x + dx) width
        y := mouseClamp (s.y + dy) height
        buttons := buttons
        reports := (s.reports + 1) % 2 ^ 32
        moves := (s.moves + if dx ≠ 0 ∨ dy ≠ 0 then 1 else 0) % 2 ^ 32
        presses := (s.presses + if buttons.ldiff s.buttons ≠ 0 then 1 else 0) % 2 ^ 32
        releases := (s.releases + if s.buttons.ldiff buttons ≠ 0 then 1 else 0) % 2 ^ 32
        seenButtons := s.seenButtons ||| buttons })

/-- `struct pi4_usb_bus_device`, with the address and the words of its IN ring. -/
structure BusDevice where
  role : ℕ
  slot : ℕ
  endpoint : ℕ
  packet : ℕ
  ringIn : ℕ
  inBus : ℕ
  bufferBus : ℕ
  ring : ℕ → ℕ
  producer : Producer
  keyboard : List UInt8
  mouse : MouseState
  reports : ℕ

/-- `g_pi4_bus` -/
structure Bus where
  count : ℕ
  keyboard : ℕ
  mouse : ℕ
  device : ℕ → BusDevice
  pending : ℕ → Pending
  lastStatus : ℕ
  lastControl : ℕ
  reading : Bool
  interleaved : ℕ

/-- What a call finds outside: the report buffers of the devices, the size of the framebuffer, and what the
doorbell registers answer. -/
structure HidEnv where
  report : ℕ → List UInt8
  width : ℕ
  height : ℕ
  write : ℕ → ℕ → Bool
  read : ℕ → Bool

/-- The length that is requested for a report. -/
def BusDevice.bytes (d : BusDevice) : ℕ := if d.role = 1 then 8 else d.packet

/-- `pi4_xhci_dma_bulk_normal_seed`, where the words are aligned -/
def bulkNormalSeed (bufferBus length directionIn cycle : ℕ) : Option Trb :=
  if length = 0 ∨ length > 65536 ∨ bufferBus % 65536 + length > 65536 ∨ bufferBus > 2 ^ 64 - 1 - length ∨
      directionIn > 1 ∨ cycle > 1 then none
  else
    some ⟨bufferBus % 2 ^ 32, bufferBus / 2 ^ 32, length, 1 <<< 10 ||| 1 <<< 5 ||| directionIn <<< 2 ||| cycle⟩

/-- `pi4_usb_bus_queue`: what it returns, the bus, and the TRB that was enqueued for the device. -/
def busQueue (env : HidEnv) (bus : Bus) (i : ℕ) : Bool × Bus × List (ℕ × ℕ) :=
  let d := bus.device i
  match bulkNormalSeed (d.bufferBus + 3072) d.bytes 1 d.producer.cycle with
  | none => (false, bus, [])
  | some words =>
    match ringEnqueue d.ringIn d.inBus d.producer words with
    | (_, _, _, none) => (false, bus, [])
    | (_, producer, stores, some index) =>
      let p : Pending := ⟨d.inBus + index * 16, d.slot, d.endpoint % 16 * 2 + 1, d.bytes,
        if d.role = 1 then 8 else 3⟩
      (env.write (d.slot * 4) p.dci && env.read (d.slot * 4),
        { bus with
          device := Function.update bus.device i
            { d with producer := producer, ring := apply d.ring stores }
          pending := Function.update bus.pending i p },
        [(i, p.trb)])

/-- The decoder of a device: whether it was successful, the device and the calls of the emitter. -/
def hidDecode (env : HidEnv) (d : BusDevice) (report : List UInt8) (actual : ℕ) :
    Bool × BusDevice × List KeyCall :=
  if d.role = 1 then
    let r := pi4UsbKeyboardDecode d.keyboard report actual
    (r.1 ≥ 0, { d with keyboard := r.2.1 }, r.2.2)
  else
    let r := mouseDecode d.mouse report actual env.width env.height
    (r.1 ≠ 0, { d with mouse := r.2 }, [])

/-- What an event did: what was returned, the bus, the decoder runs as device and length, the TRBs that were
enqueued as device and address, and the calls of the emitter. -/
structure HidStep where
  ret : ℤ
  bus : Bus
  decoded : List (ℕ × ℕ)
  queued : List (ℕ × ℕ)
  keys : List KeyCall

/-- The bus when the report of a device was decoded. -/
def Bus.decode (env : HidEnv) (bus : Bus) (e : Event) (i actual : ℕ) : Bus :=
  let d := bus.device i
  { bus with
    pending := Function.update bus.pending i { bus.pending i with trb := 0 }
    lastStatus := e.status
    lastControl := e.control
    device := Function.update bus.device i
      (hidDecode env { d with reports := (d.reports + 1) % 2 ^ 32 } (env.report i) actual).2.1
    interleaved := (bus.interleaved + if bus.reading then 1 else 0) % 2 ^ 32 }

/-- `pi4_usb_bus_dispatch` -/
def busDispatch (env : HidEnv) (bus : Bus) (e : Event) : HidStep :=
  let owner := busCompletion bus.pending bus.count e
  if owner.1 ≤ 0 then ⟨owner.1, bus, [], [], []⟩
  else
    let i := (owner.1 - 1).toNat
    let d := bus.device i
    let decode := hidDecode env { d with reports := (d.reports + 1) % 2 ^ 32 } (env.report i) owner.2
    let decoded := bus.decode env e i owner.2
    if decode.1 then
      let queue := busQueue env decoded i
      ⟨if queue.1 then 1 else -1, queue.2.1, [(i, owner.2)], queue.2.2, decode.2.2⟩
    else ⟨-1, decoded, [(i, owner.2)], [], decode.2.2⟩

/-! ## Runs -/

/-- A device that is configured for reports: its slot and endpoint, its ring with the controller at the
start, and its buffer. -/
structure HidDevice (d : BusDevice) : Prop where
  slot : 1 ≤ d.slot ∧ d.slot ≤ 6
  endpoint : d.endpoint % 16 ≠ 0
  packet : 3 ≤ d.packet ∧ d.packet ≤ 64
  ring : d.ringIn ≠ 0 ∧ d.ringIn % 64 = 0
  inBus : d.inBus ≠ 0 ∧ d.inBus % 64 = 0 ∧ d.inBus + 4096 ≤ 2 ^ 64
  buffer : d.bufferBus % 4096 = 0 ∧ d.bufferBus + 8192 ≤ 2 ^ 64
  producer : d.producer = ⟨0, 1, 0⟩

/-- A bus before its first TRBs: a keyboard and a mouse, with slots of their own. -/
structure HidStart (bus : Bus) : Prop where
  count : bus.count ≤ busChildren
  keyboard : bus.keyboard < bus.count ∧ HidDevice (bus.device bus.keyboard) ∧
    (bus.device bus.keyboard).role = 1
  mouse : bus.mouse < bus.count ∧ HidDevice (bus.device bus.mouse) ∧ (bus.device bus.mouse).role = 2
  slots : (bus.device bus.keyboard).slot ≠ (bus.device bus.mouse).slot
  pending : ∀ i, (bus.pending i).trb = 0

/-- The loop of `pi4_usb_bus_start` that queues the first TRBs. -/
def busStart (env : HidEnv) : Bus → List ℕ → Option (Bus × List (ℕ × ℕ))
  | bus, [] => some (bus, [])
  | bus, i :: is =>
    if i ≠ bus.keyboard ∧ i ≠ bus.mouse then busStart env bus is
    else
      let queue := busQueue env bus i
      if queue.1 then (busStart env queue.2.1 is).map fun r => (r.1, queue.2.2 ++ r.2) else none

/-- The states of a bus while no call has returned -1: the TRBs that were queued and those whose reports were
decoded, as devices with addresses. -/
inductive HidReach (first : Bus) : Bus → List (ℕ × ℕ) → List (ℕ × ℕ) → Prop where
  | start {bus : Bus} {queued : List (ℕ × ℕ)} (env : HidEnv)
      (hstart : busStart env first (List.range first.count) = some (bus, queued)) :
      HidReach first bus queued []
  | event {bus : Bus} {queued decoded : List (ℕ × ℕ)} (env : HidEnv) (e : Event)
      (h : HidReach first bus queued decoded) (hret : (busDispatch env bus e).ret ≠ -1) :
      HidReach first (busDispatch env bus e).bus (queued ++ (busDispatch env bus e).queued)
        (decoded ++ (busDispatch env bus e).decoded.map fun d => (d.1, e.parameter / 16 * 16))

/-! ## What holds -/

/-- The addresses of the TRBs of a device. -/
def trbsOf (i : ℕ) (trbs : List (ℕ × ℕ)) : List ℕ := (trbs.filter fun t => t.1 = i).map Prod.snd

/-- A device that gets reports. -/
def Bus.Active (bus : Bus) (i : ℕ) : Prop := i = bus.keyboard ∨ i = bus.mouse

/-- An event of the endpoint of a device. -/
structure Pending.Owns (p : Pending) (e : Event) : Prop where
  type : trbType e.control = trbTypeTransferEvt
  slot : e.control / 2 ^ 24 = p.slot
  endpoint : e.control / 2 ^ 16 % 32 = p.dci

/-- An event that completes the TRB of a device: it names the TRB, with success and no residue or as a short
packet, and the report is long enough. -/
structure Pending.Completes (p : Pending) (e : Event) : Prop extends p.Owns e where
  data : e.control / 4 % 2 = 0
  names : e.parameter / 16 * 16 = p.trb
  code : (e.status / 2 ^ 24 = 1 ∧ e.status % 2 ^ 24 = 0) ∨ e.status / 2 ^ 24 = 13
  length : p.minimum + e.status % 2 ^ 24 ≤ p.requested

/-- The TRB of an active device. -/
structure Outstanding (first bus : Bus) (queued decoded : List (ℕ × ℕ)) (i : ℕ) : Prop where
  one : trbsOf i queued = trbsOf i decoded ++ [(bus.pending i).trb]
  numbered : ∀ n, (hn : n < (trbsOf i queued).length) →
    (trbsOf i queued)[n] = (first.device i).inBus + 16 * (n % ringLink)
  last : ∃ p : Producer, p.index < ringLink ∧ p.advance = (bus.device i).producer ∧
    (bus.pending i).trb = (first.device i).inBus + 16 * p.index
  endpoint : (bus.pending i).slot = (first.device i).slot ∧
    (bus.pending i).dci = (first.device i).endpoint % 16 * 2 + 1
  length : (bus.pending i).requested = (first.device i).bytes ∧
    (bus.pending i).minimum = if (first.device i).role = 1 then 8 else 3

/-- The decoder of a device has run once, and a new TRB is outstanding. -/
structure Decoded (env : HidEnv) (bus : Bus) (e : Event) (i : ℕ) (r : HidStep) : Prop where
  once : r.decoded = [(i, (bus.pending i).requested - e.status % 2 ^ 24)]
  keyboard : (bus.device i).role = 1 →
    (r.bus.device i).keyboard = (pi4UsbKeyboardDecode (bus.device i).keyboard (env.report i)
        ((bus.pending i).requested - e.status % 2 ^ 24)).2.1 ∧
      r.keys = (pi4UsbKeyboardDecode (bus.device i).keyboard (env.report i)
        ((bus.pending i).requested - e.status % 2 ^ 24)).2.2
  mouse : (bus.device i).role ≠ 1 → r.keys = [] ∧
    (r.bus.device i).mouse = (mouseDecode (bus.device i).mouse (env.report i)
      ((bus.pending i).requested - e.status % 2 ^ 24) env.width env.height).2
  next : r.queued = [(i, (r.bus.pending i).trb)]
  others : ∀ j, j ≠ i → r.bus.device j = bus.device j ∧ r.bus.pending j = bus.pending j

/-- **What holds in a state of a run**: each active device has one TRB that is outstanding; the next event
returns 1 if it completes one and 0 if it is of no HID endpoint; and when it is delivered once more nothing
is decoded. -/
structure HidSafe (first bus : Bus) (queued decoded : List (ℕ × ℕ)) : Prop where
  outstanding : ∀ i, first.Active i → Outstanding first bus queued decoded i
  inactive : ∀ i, ¬first.Active i → (bus.pending i).trb = 0 ∧ trbsOf i queued = []
  one : ∀ env e, (busDispatch env bus e).ret ≠ -1 →
    ((busDispatch env bus e).ret = 1 ↔ ∃ i, first.Active i ∧ (bus.pending i).Completes e)
  accepted : ∀ env e i, first.Active i → (bus.pending i).Completes e → env.width ≠ 0 → env.height ≠ 0 →
    (∀ register value, env.write register value = true) → (∀ register, env.read register = true) →
    (busDispatch env bus e).ret = 1
  effect : ∀ env e i, first.Active i → (bus.pending i).Completes e → (busDispatch env bus e).ret = 1 →
    Decoded env bus e i (busDispatch env bus e)
  zero : ∀ env e, ((busDispatch env bus e).ret = 0 ↔ ∀ i, first.Active i → ¬(bus.pending i).Owns e) ∧
    ((busDispatch env bus e).ret = 0 → busDispatch env bus e = ⟨0, bus, [], [], []⟩)
  bad : ∀ env e, (¬∃ i, first.Active i ∧ (bus.pending i).Completes e) →
    (busDispatch env bus e).decoded = [] ∧ (busDispatch env bus e).bus = bus
  again : ∀ env env' e, (busDispatch env bus e).ret = 1 →
    (busDispatch env' (busDispatch env bus e).bus e).ret = -1 ∧
      (busDispatch env' (busDispatch env bus e).bus e).decoded = []
  distinct : ∀ i n m, (hn : n < (trbsOf i decoded).length) → (hm : m < (trbsOf i decoded).length) →
    (trbsOf i decoded)[n] = (trbsOf i decoded)[m] → n % ringLink = m % ringLink

end ZealBringup.Pi4
