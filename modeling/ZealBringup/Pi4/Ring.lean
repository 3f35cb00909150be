import Mathlib
import ZealBringup.Lib.Stores
import ZealBringup.Usb.Ring

/-!
# The rings of the controller

`pi4_xhci_dma_ring_enqueue` and `pi4_xhci_dma_ring_skipped_prefix` of `pi4_xhci_dma_probe.h`, down to the
single stores of words, and a controller that may look at the ring between any two of them.

* `ringEnqueue` — the function: what it returns, the producer and its stores in order.
* `Consumer.look` — one look of the controller at the TRB of its pointer.
* `RingReach` — the states of a ring with at most one TRB that is not consumed.
* `RingSafe` — what the controller gets to see.
-/

namespace ZealBringup.Pi4

open Stores
open ZealBringup.Usb (trbType withCycle)

/-! ## Memory -/

/-- The words of a TRB. -/
structure Trb where
  w0 : ℕ
  w1 : ℕ
  w2 : ℕ
  w3 : ℕ
  deriving DecidableEq

/-- The words of an event. -/
structure Event where
  parameter : ℕ
  status : ℕ
  control : ℕ

/-- A store of a word of the ring. -/
abbrev WordStore := ℕ × ℕ

/-- A TRB of a ring, given by its words. -/
def trbAt (mem : ℕ → ℕ) (i : ℕ) : Trb := ⟨mem (4 * i), mem (4 * i + 1), mem (4 * i + 2), mem (4 * i + 3)⟩

/-- The index of the Link, `PI4_XHCI_DMA_RING_BYTES / 16u - 1u`. -/
def ringLink : ℕ := 4096 / 16 - 1

/-- `PI4_XHCI_TRB_TYPE_LINK` -/
def trbTypeLink : ℕ := 6

/-- `PI4_XHCI_TRB_TYPE_TRANSFER_EVT` -/
def trbTypeTransferEvt : ℕ := 32

/-! ## The producer -/

/-- `struct pi4_xhci_dma_producer` -/
structure Producer where
  index : ℕ
  cycle : ℕ
  wraps : ℕ
  deriving DecidableEq

/-- The stores of the Link: its words while it is not owned, and then its cycle. -/
def linkStores (bus cycle : ℕ) : List WordStore :=
  [(4 * ringLink + 3, trbTypeLink <<< 10 ||| 2 ||| (cycle ^^^ 1)), (4 * ringLink, bus % 2 ^ 32),
    (4 * ringLink + 1, bus / 2 ^ 32), (4 * ringLink + 2, 0),
    (4 * ringLink + 3, trbTypeLink <<< 10 ||| 2 ||| cycle)]

/-- The stores of a TRB: its words while it is not owned, and then its cycle. -/
def trbStores (index : ℕ) (words : Trb) (cycle : ℕ) : List WordStore :=
  [(4 * index + 3, words.w3 / 2 * 2 + (cycle ^^^ 1)), (4 * index, words.w0), (4 * index + 1, words.w1),
    (4 * index + 2, words.w2), (4 * index + 3, words.w3 / 2 * 2 + cycle)]

/-- `if (++p->index == link)` -/
def Producer.advance (p : Producer) : Producer :=
  if p.index + 1 = ringLink then ⟨0, p.cycle ^^^ 1, (p.wraps + 1) % 2 ^ 32⟩
  else { p with index := p.index + 1 }

/-- `pi4_xhci_dma_ring_enqueue`: what it returns, the producer, its stores and `*queued_index`. -/
def ringEnqueue (ring bus : ℕ) (p : Producer) (words : Trb) :
    ℤ × Producer × List WordStore × Option ℕ :=
  if ring = 0 ∨ ring % 64 ≠ 0 ∨ bus % 64 ≠ 0 ∨ p.index ≥ ringLink ∨ p.cycle > 1 ∨
      trbType words.w3 = trbTypeLink then (-1, p, [], none)
  else
    (0, p.advance,
      (if p.index = ringLink - 1 then linkStores bus p.cycle else []) ++
        trbStores p.index words p.cycle,
      some p.index)

/-- `pi4_xhci_dma_ring_skipped_prefix` -/
def ringSkippedPrefix (ring skipped cycle : ℕ) : ℤ × List WordStore :=
  if ring = 0 ∨ ring % 64 ≠ 0 ∨ cycle > 1 ∨ skipped ≥ ringLink then (-1, [])
  else (0, (List.range skipped).map fun i => (4 * i + 3, cycle))

/-! ## The controller -/

/-- The dequeue pointer and the cycle state of the controller. -/
structure Consumer where
  pointer : ℕ
  cycle : ℕ
  deriving DecidableEq

/-- One look at the TRB of the pointer: it waits, follows a Link or executes the TRB. -/
def Consumer.look (bus : ℕ) (mem : ℕ → ℕ) (c : Consumer) : Consumer × Option Trb :=
  let t := trbAt mem ((c.pointer - bus) / 16)
  if t.w3 % 2 ≠ c.cycle then (c, none)
  else if trbType t.w3 = trbTypeLink then
    (⟨t.w0 / 16 * 16 + t.w1 * 2 ^ 32, if t.w3 / 2 % 2 = 1 then c.cycle ^^^ 1 else c.cycle⟩, none)
  else ({ c with pointer := c.pointer + 16 }, some t)

/-! ## Runs -/

/-- A ring between its two parties: the stores that are still to come, the TRBs that were enqueued and
those that were executed. -/
structure RingState where
  mem : ℕ → ℕ
  producer : Producer
  pending : List WordStore
  consumer : Consumer
  sent : List Trb
  seen : List Trb

/-- A call of `pi4_xhci_dma_ring_enqueue`, with its stores to come. -/
def RingState.call (ring bus : ℕ) (s : RingState) (words : Trb) : RingState :=
  let r := ringEnqueue ring bus s.producer words
  { s with
    producer := r.2.1
    pending := r.2.2.1
    sent := if r.1 = 0 then s.sent ++ [words] else s.sent }

/-- A store that was to come. -/
def RingState.store (s : RingState) (st : WordStore) (rest : List WordStore) : RingState :=
  { s with mem := Function.update s.mem st.1 st.2, pending := rest }

/-- A look of the controller. -/
def RingState.look (bus : ℕ) (s : RingState) : RingState :=
  { s with
    consumer := (s.consumer.look bus s.mem).1
    seen := s.seen ++ (s.consumer.look bus s.mem).2.toList }

/-- A ring that starts at an index, where the controller starts too. -/
def ringStart (bus : ℕ) (mem : ℕ → ℕ) (start cycle : ℕ) : RingState :=
  ⟨mem, ⟨start, cycle, 0⟩, [], ⟨bus + 16 * start, cycle⟩, [], []⟩

/-- The states of a ring. Its TRBs from the start on are not owned yet, the skipped ones are invalidated
before it is used, and a TRB is enqueued when all others are consumed. -/
inductive RingReach (ring bus : ℕ) : RingState → Prop where
  | start (mem : ℕ → ℕ) (start cycle : ℕ) (hstart : start < ringLink) (hcycle : cycle ≤ 1)
      (hskipped : start = 0 ∨ (ringSkippedPrefix ring start cycle).1 = 0)
      (hfresh : ∀ i, start ≤ i → i < ringLink → mem (4 * i + 3) % 2 ≠ cycle) :
      RingReach ring bus (ringStart bus (apply mem (ringSkippedPrefix ring start cycle).2) start cycle)
  | call {s : RingState} (words : Trb) (h : RingReach ring bus s) (hidle : s.pending = [])
      (hconsumed : s.sent.length ≤ s.seen.length) : RingReach ring bus (s.call ring bus words)
  | store {s : RingState} {st : WordStore} {rest : List WordStore} (h : RingReach ring bus s)
      (hpending : s.pending = st :: rest) : RingReach ring bus (s.store st rest)
  | look {s : RingState} (h : RingReach ring bus s) : RingReach ring bus (s.look bus)

/-- The words of a TRB without the cycle bit, which belongs to the ring. -/
def Trb.payload (t : Trb) : ℕ × ℕ × ℕ × ℕ := (t.w0, t.w1, t.w2, t.w3 / 2)

/-- **What the controller gets to see**: it executes the TRBs that were enqueued, in order and with their
words; when no store is to come it executes what is left, after the Link at most; it follows the Link
only behind the last TRB of a lap, to the first one of the lap that the producer is in; and a call that
is rejected changes nothing. -/
structure RingSafe (ring bus : ℕ) (s : RingState) : Prop where
  order : s.seen.map Trb.payload <+: s.sent.map Trb.payload
  one : s.sent.length ≤ s.seen.length + 1
  progress : s.pending = [] → s.seen.length < s.sent.length →
    (s.look bus).seen.length = s.sent.length ∨ ((s.look bus).look bus).seen.length = s.sent.length
  link : trbType (trbAt s.mem ((s.consumer.pointer - bus) / 16)).w3 = trbTypeLink →
    (s.look bus).consumer ≠ s.consumer →
    s.consumer.pointer = bus + 16 * ringLink ∧ (s.look bus).consumer = ⟨bus, s.producer.cycle⟩ ∧
      s.producer.cycle = s.consumer.cycle ^^^ 1
  rejected : ∀ words, (ringEnqueue ring bus s.producer words).1 ≠ 0 →
    (ringEnqueue ring bus s.producer words).2.1 = s.producer ∧
      (ringEnqueue ring bus s.producer words).2.2.1 = []

end ZealBringup.Pi4
