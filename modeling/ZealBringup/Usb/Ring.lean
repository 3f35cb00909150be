import Mathlib.Logic.Function.Basic
import ZealBringup.Lib.CycleRing

/-!
# Producer rings

`usb_ring_put` of `usb_xhci.h` and a controller that works through the ring by the cycle bits.

* `usbRingPut` — the function: the ring, its stores in order and the address that it returns.
* `Consumer.step` — one look of the controller at the TRB of its pointer.
* `RingReach` — the states of a ring whose stores and looks come in any order, with at most 62 TRBs
  that the controller has not processed.
-/

namespace ZealBringup.Usb

open CycleRing

/-! ## Memory -/

/-- `struct usb_trb`. -/
structure UsbTrb where
  parameter : ℕ
  status : ℕ
  control : ℕ
  deriving DecidableEq

/-- `USB_TRBS`. -/
abbrev usbTrbs : ℕ := 64

/-- `USB_TRB`. -/
def usbTrb (t : ℕ) : ℕ := t <<< 10

/-- The type of a TRB. -/
def trbType (control : ℕ) : ℕ := control / 1024 % 64

/-- `(control & ~1u) | cycle`. -/
def withCycle (control : ℕ) (cycle : Bool) : ℕ := control / 2 * 2 + cycle.toNat

/-- The address of a TRB of sixteen bytes. -/
def trbAddress (trbs i : ℕ) : ℕ := trbs + 16 * i

/-- A store to a field of the TRB at an address. -/
inductive Store where
  | parameter (address value : ℕ)
  | status (address value : ℕ)
  | control (address value : ℕ)

def Store.apply (mem : ℕ → UsbTrb) : Store → ℕ → UsbTrb
  | .parameter address value =>
      Function.update mem address { mem address with parameter := value }
  | .status address value => Function.update mem address { mem address with status := value }
  | .control address value => Function.update mem address { mem address with control := value }

/-! ## The producer -/

/-- `struct usb_ring`, with the bus address of its TRBs. -/
structure UsbRing where
  trbs : ℕ
  enqueue : ℕ
  cycle : Bool

/-- `usb_ring_put`. -/
def usbRingPut (r : UsbRing) (parameter status control : ℕ) : UsbRing × List Store × ℕ :=
  let t := trbAddress r.trbs r.enqueue
  let stores :=
    [.parameter t parameter, .status t status, .control t (withCycle control r.cycle)]
  if r.enqueue + 1 = usbTrbs - 1 then
    let link := trbAddress r.trbs (usbTrbs - 1)
    ({ r with enqueue := 0, cycle := !r.cycle },
      stores ++ [.parameter link r.trbs, .status link 0,
        .control link (usbTrb 6 ||| 2 ||| r.cycle.toNat)], t)
  else ({ r with enqueue := r.enqueue + 1 }, stores, t)

/-! ## The controller -/

/-- The dequeue pointer and the cycle state of the controller. -/
structure Consumer where
  pointer : ℕ
  cycle : Bool

/-- A TRB to be worked on, without its cycle bit. -/
structure Work where
  address : ℕ
  parameter : ℕ
  status : ℕ
  control : ℕ
  deriving DecidableEq

/-- One look at the TRB of the pointer: it waits, follows a link or processes the TRB. -/
def Consumer.step (mem : ℕ → UsbTrb) (c : Consumer) : Consumer × Option Work :=
  let t := mem c.pointer
  if t.control % 2 ≠ c.cycle.toNat then (c, none)
  else if trbType t.control = 6 then
    (⟨t.parameter, if t.control / 2 % 2 = 1 then !c.cycle else c.cycle⟩, none)
  else ({ c with pointer := c.pointer + 16 },
    some ⟨c.pointer, t.parameter, t.status, t.control / 2⟩)

/-! ## Runs -/

/-- A ring between its two parties: the stores that are still to come, the TRBs put with the
addresses returned, and the TRBs processed. -/
structure RingState where
  mem : ℕ → UsbTrb
  ring : UsbRing
  pending : List Store
  consumer : Consumer
  puts : List Work
  seen : List Work

/-- A call of `usb_ring_put`, with its stores to come. -/
def RingState.put (s : RingState) (parameter status control : ℕ) : RingState :=
  { s with
    ring := (usbRingPut s.ring parameter status control).1
    pending := (usbRingPut s.ring parameter status control).2.1
    puts := s.puts ++
      [⟨(usbRingPut s.ring parameter status control).2.2, parameter, status, control / 2⟩] }

/-- A store that was to come. -/
def RingState.after (s : RingState) (st : Store) (rest : List Store) : RingState :=
  { s with mem := st.apply s.mem, pending := rest }

/-- A look of the controller. -/
def RingState.consume (s : RingState) : RingState :=
  { s with
    consumer := (s.consumer.step s.mem).1
    seen := s.seen ++ (s.consumer.step s.mem).2.toList }

/-- A ring after `usb_ring_init`: its TRBs are zero. -/
def ringStart (mem : ℕ → UsbTrb) (trbs : ℕ) : RingState :=
  ⟨mem, ⟨trbs, 0, true⟩, [], ⟨trbs, true⟩, [], []⟩

/-- The states of a ring at `trbs`. The callers put transfers (types 1 to 4) and commands (types 9,
10, 11, 12, 13 and 23), never a link, and a put leaves at most 62 TRBs that are not processed. -/
inductive RingReach (trbs : ℕ) : RingState → Prop where
  | start (mem : ℕ → UsbTrb) (hmem : ∀ i < usbTrbs, mem (trbAddress trbs i) = ⟨0, 0, 0⟩) :
      RingReach trbs (ringStart mem trbs)
  | put {s : RingState} (parameter status control : ℕ) (h : RingReach trbs s)
      (hidle : s.pending = []) (htype : trbType control ≠ 6)
      (hroom : s.puts.length + 1 ≤ s.seen.length + 62) :
      RingReach trbs (s.put parameter status control)
  | store {s : RingState} {st : Store} {rest : List Store} (h : RingReach trbs s)
      (hpending : s.pending = st :: rest) :
      RingReach trbs (s.after st rest)
  | consume {s : RingState} (h : RingReach trbs s) : RingReach trbs s.consume

end ZealBringup.Usb
