import Mathlib.Data.Finset.Card
import Mathlib.Data.List.Dedup
import Mathlib.Logic.Function.Basic
import ZealBringup.Lib.Records

/-!
# Configuration descriptors on the Pi

`pi4_xhci_dma_configuration_descriptor_ok` walks the descriptors of one configuration and
keeps what the drivers need of them.  `pi4_usb_boot_hid_select` asks it first and then walks
the same descriptors for a keyboard or a mouse, with an interface descriptor that is not there
behind the last one.

`return 0;` is the error `reject`.  A read outside of the descriptor is the error `fault`, and a
loop that does not come to its end is the error `fuel`.

A configuration is its header and a chain of descriptors.  The descriptors come in groups, an
interface and what belongs to it, and each group is judged by itself.  This is what the
validator is meant to accept, said without walking.

* `configurationDescriptorOk` — the validator, with its summary.
* `bootHidSelect` — the selection.
* `GroupOk` — one interface with its endpoints and companions.
* `Configuration` — a well-formed configuration.
* `summaryOf` — what it says.
-/

namespace ZealBringup.Pi4

open Records

/-! ## Reading -/

/-- How a function ends that does not return 1. -/
inductive Stop where
  | reject
  | fault
  | fuel
  deriving DecidableEq

/-- `d[i]` -/
def readByte (d : List UInt8) (i : ℕ) : Except Stop ℕ :=
  if i < d.length then .ok (byte d i) else .error .fault

/-- `d[i] | d[i + 1] << 8` -/
def readWord (d : List UInt8) (i : ℕ) : Except Stop ℕ := do
  let lo ← readByte d i
  let hi ← readByte d (i + 1)
  .ok (lo ||| hi <<< 8)

/-- What the function returns: nothing for `return 0;`. -/
def answer {α : Type} : Except Stop α → Except Stop (Option α)
  | .ok a => .ok (some a)
  | .error .reject => .ok none
  | .error e => .error e

/-! ## The validator -/

def UINT32_MAX : ℕ := 0xffffffff

/-- The `first_interface_` fields. -/
structure FirstInterface where
  number : ℕ := UINT32_MAX
  class_ : ℕ := UINT32_MAX
  subclass : ℕ := UINT32_MAX
  protocol : ℕ := UINT32_MAX
  endpointCount : ℕ := UINT32_MAX
  deriving DecidableEq

/-- The `first_endpoint_` fields. -/
structure FirstEndpoint where
  address : ℕ := UINT32_MAX
  attributes : ℕ := UINT32_MAX
  maxPacket : ℕ := UINT32_MAX
  interval : ℕ := UINT32_MAX
  deriving DecidableEq

/-- The `bot_interface_` fields. -/
structure BotInterface where
  number : ℕ := UINT32_MAX
  alt : ℕ := UINT32_MAX
  endpointCount : ℕ := UINT32_MAX
  deriving DecidableEq

/-- The `bot_bulk_in_` or the `bot_bulk_out_` fields. -/
structure BulkEnd where
  address : ℕ := UINT32_MAX
  attributes : ℕ := UINT32_MAX
  maxPacket : ℕ := UINT32_MAX
  interval : ℕ := UINT32_MAX
  maxBurst : ℕ := UINT32_MAX
  streams : ℕ := UINT32_MAX
  deriving DecidableEq

/-- `struct pi4_xhci_dma_config_summary` -/
structure ConfigSummary where
  totalLength : ℕ
  configurationValue : ℕ
  interfaceDescriptors : ℕ
  uniqueInterfaces : ℕ
  endpointDescriptors : ℕ
  firstInterface : FirstInterface
  firstEndpoint : FirstEndpoint
  botInterfaceFound : Bool
  botInterface : BotInterface
  bulkIn : BulkEnd
  bulkOut : BulkEnd
  deriving DecidableEq

/-- The locals of the validator. -/
structure ConfigWalk where
  seenInterfaces : ℕ → ℕ := fun _ => 0
  interfaceDescriptors : ℕ := 0
  uniqueInterfaces : ℕ := 0
  endpointDescriptors : ℕ := 0
  currentEndpoints : ℕ := 0
  expectedEndpoints : ℕ := 0
  haveInterface : Bool := false
  firstInterface : FirstInterface := {}
  firstEndpoint : FirstEndpoint := {}
  currentBotInterface : Bool := false
  botInterfaceFound : Bool := false
  botInterface : BotInterface := {}
  bulkIn : BulkEnd := {}
  bulkOut : BulkEnd := {}
  companionEndpoint : ℕ := 0

/-- `pi4_xhci_dma_configuration_header_ok` -/
def configurationHeaderOk (d : List UInt8) (length : ℕ) : Except Stop Bool :=
  if length < 9 then .ok false
  else do
    let size ← readByte d 0
    let type ← readByte d 1
    let interfaces ← readByte d 4
    let value ← readByte d 5
    let attributes ← readByte d 7
    if size ≠ 9 ∨ type ≠ 2 ∨ interfaces = 0 ∨ value = 0 ∨ attributes &&& 0x80 = 0 then .ok false
    else
      let total ← readWord d 2
      .ok (decide (9 ≤ total) && decide (length ≤ total))

/-- The endpoints of the interface so far are as many as it declares. -/
def ConfigWalk.closed (w : ConfigWalk) : Bool :=
  !w.haveInterface || w.currentEndpoints == w.expectedEndpoints

/-- An interface number is counted once. -/
def ConfigWalk.see (w : ConfigWalk) (number : ℕ) : ConfigWalk :=
  if w.seenInterfaces (number / 8) &&& 1 <<< (number % 8) = 0 then
    { w with
      seenInterfaces := Function.update w.seenInterfaces (number / 8)
        (w.seenInterfaces (number / 8) ||| 1 <<< (number % 8))
      uniqueInterfaces := w.uniqueInterfaces + 1 }
  else w

/-- The interface descriptor of `n` bytes, behind the tests of its length and of the interface
before it. -/
def openInterface (d : List UInt8) (offset : ℕ) (w : ConfigWalk) : Except Stop ConfigWalk := do
  let number ← readByte d (offset + 2)
  let alt ← readByte d (offset + 3)
  let endpoints ← readByte d (offset + 4)
  let class_ ← readByte d (offset + 5)
  let subclass ← readByte d (offset + 6)
  let protocol ← readByte d (offset + 7)
  let w := w.see number
  let bot := alt == 0 && class_ == 8 && subclass == 6 && protocol == 0x50
  if bot ∧ w.botInterfaceFound then .error .reject
  else
    .ok { w with
      firstInterface :=
        if w.interfaceDescriptors = 0 then ⟨number, class_, subclass, protocol, endpoints⟩
        else w.firstInterface
      interfaceDescriptors := w.interfaceDescriptors + 1
      expectedEndpoints := endpoints
      currentEndpoints := 0
      haveInterface := true
      currentBotInterface := bot
      botInterfaceFound := w.botInterfaceFound || bot
      botInterface := if bot then ⟨number, alt, endpoints⟩ else w.botInterface }

/-- One of the two bulk endpoints of the storage interface is recorded. -/
def ConfigWalk.recordBulk (w : ConfigWalk) (address attributes maxPacket interval : ℕ) :
    Except Stop ConfigWalk :=
  let bulk : BulkEnd := { address, attributes, maxPacket := maxPacket &&& 0x07ff, interval }
  if address &&& 0x80 ≠ 0 then
    if w.bulkIn.address ≠ UINT32_MAX then .error .reject
    else .ok { w with
      bulkIn := { bulk with maxBurst := w.bulkIn.maxBurst, streams := w.bulkIn.streams }
      companionEndpoint := 1 }
  else
    if w.bulkOut.address ≠ UINT32_MAX then .error .reject
    else .ok { w with
      bulkOut := { bulk with maxBurst := w.bulkOut.maxBurst, streams := w.bulkOut.streams }
      companionEndpoint := 2 }

/-- An endpoint is recorded if it is the first one, or a bulk endpoint of the storage interface. -/
def ConfigWalk.recordEndpoint (w : ConfigWalk) (address attributes maxPacket interval : ℕ) :
    Except Stop ConfigWalk :=
  let w := { w with
    firstEndpoint :=
      if w.endpointDescriptors = 0 then ⟨address, attributes, maxPacket, interval⟩
      else w.firstEndpoint }
  if w.currentBotInterface && attributes &&& 3 == 2 then
    w.recordBulk address attributes maxPacket interval
  else .ok w

/-- An endpoint descriptor of `n` bytes. -/
def configEndpoint (d : List UInt8) (offset n : ℕ) (w : ConfigWalk) : Except Stop ConfigWalk :=
  if n < 7 ∨ !w.haveInterface ∨ w.expectedEndpoints ≤ w.currentEndpoints then .error .reject
  else do
    let address ← readByte d (offset + 2)
    if address &&& 0x0f = 0 ∨ address &&& 0x70 ≠ 0 then .error .reject
    else
      let attributes ← readByte d (offset + 3)
      let maxPacket ← readWord d (offset + 4)
      let interval ← readByte d (offset + 6)
      if (w.currentBotInterface && attributes &&& 3 == 2) ∧ maxPacket &&& 0xf800 ≠ 0 then
        .error .reject
      else
        let w ← w.recordEndpoint address attributes maxPacket interval
        .ok { w with
          endpointDescriptors := w.endpointDescriptors + 1
          currentEndpoints := w.currentEndpoints + 1 }

/-- A companion descriptor of `n` bytes in the storage interface. -/
def configCompanion (d : List UInt8) (offset n : ℕ) (w : ConfigWalk) : Except Stop ConfigWalk :=
  if n ≠ 6 ∨ w.companionEndpoint = 0 then .error .reject
  else do
    let maxBurst ← readByte d (offset + 2)
    let streams ← readByte d (offset + 3)
    let low ← readByte d (offset + 4)
    let high ← readByte d (offset + 5)
    if 15 < maxBurst ∨ 16 < streams ∨ low ≠ 0 ∨ high ≠ 0 then .error .reject
    else if w.companionEndpoint = 1 then
      .ok { w with bulkIn := { w.bulkIn with maxBurst, streams }, companionEndpoint := 0 }
    else
      .ok { w with bulkOut := { w.bulkOut with maxBurst, streams }, companionEndpoint := 0 }

/-- `if (type != 48u) companion_endpoint = 0;` -/
def ConfigWalk.await (w : ConfigWalk) (type : ℕ) : ConfigWalk :=
  if type ≠ 48 then { w with companionEndpoint := 0 } else w

/-- The descriptor of `n` bytes at `offset`. -/
def configDescriptor (d : List UInt8) (offset n type : ℕ) (w : ConfigWalk) :
    Except Stop ConfigWalk :=
  if type = 4 then
    if n < 9 ∨ !(w.await type).closed then .error .reject
    else openInterface d offset (w.await type)
  else if type = 5 then configEndpoint d offset n (w.await type)
  else if type = 48 ∧ (w.await type).currentBotInterface then
    configCompanion d offset n (w.await type)
  else .ok (w.await type)

/-- The loop over the descriptors. -/
def configLoop (d : List UInt8) (total : ℕ) : ℕ → ℕ → ConfigWalk → Except Stop ConfigWalk
  | 0, _, _ => .error .fuel
  | fuel + 1, offset, w =>
    if offset < total then
      if total - offset < 2 then .error .reject
      else do
        let n ← readByte d offset
        let type ← readByte d (offset + 1)
        if n < 2 ∨ total - offset < n then .error .reject
        else
          let w ← configDescriptor d offset n type w
          configLoop d total fuel (offset + n) w
    else .ok w

/-- `pi4_xhci_dma_configuration_descriptor_ok` for a descriptor of the length of `d`. -/
def configurationCheck (d : List UInt8) (maxLength : ℕ) : Except Stop ConfigSummary :=
  if d.length < 9 ∨ maxLength < d.length then .error .reject
  else do
    let header ← configurationHeaderOk d 9
    if !header then .error .reject
    else
      let total ← readWord d 2
      if total ≠ d.length then .error .reject
      else
        let w ← configLoop d total total 9 {}
        let interfaces ← readByte d 4
        if !w.closed ∨ w.uniqueInterfaces ≠ interfaces ∨ w.interfaceDescriptors = 0 then
          .error .reject
        else
          let value ← readByte d 5
          .ok {
            totalLength := total
            configurationValue := value
            interfaceDescriptors := w.interfaceDescriptors
            uniqueInterfaces := w.uniqueInterfaces
            endpointDescriptors := w.endpointDescriptors
            firstInterface := w.firstInterface
            firstEndpoint := w.firstEndpoint
            botInterfaceFound := w.botInterfaceFound
            botInterface := w.botInterface
            bulkIn := w.bulkIn
            bulkOut := w.bulkOut }

def configurationDescriptorOk (d : List UInt8) (maxLength : ℕ) :
    Except Stop (Option ConfigSummary) :=
  answer (configurationCheck d maxLength)

/-! ## The selection -/

/-- `struct pi4_usb_keyboard_interface` -/
structure KeyboardInterface where
  found : ℕ := 0
  interface : ℕ := 0
  endpoint : ℕ := 0
  packet : ℕ := 0
  interval : ℕ := 0
  reportLength : ℕ := 0
  deriving DecidableEq

/-- The locals of the selection. -/
structure SelectWalk where
  chosen : KeyboardInterface := {}
  candidate : Bool := false
  number : ℕ := 0
  reportLength : ℕ := 0
  endpoint : ℕ := 0
  packet : ℕ := 0
  interval : ℕ := 0
  seen : ℕ := 0
  count : ℕ := 0
  deriving DecidableEq

/-- An interface ends: a candidate with an endpoint and a report descriptor is chosen. -/
def SelectWalk.close (w : SelectWalk) : Except Stop SelectWalk :=
  if w.candidate ∧ w.endpoint ≠ 0 ∧ w.reportLength ≠ 0 then
    if w.chosen.found ≠ 0 then .error .reject
    else .ok { w with chosen := ⟨1, w.number, w.endpoint, w.packet, w.interval, w.reportLength⟩ }
  else .ok w

/-- An interface begins. -/
def selectInterface (d : List UInt8) (protocol pos : ℕ) (w : SelectWalk) :
    Except Stop SelectWalk := do
  let alt ← readByte d (pos + 3)
  let class_ ← readByte d (pos + 5)
  let subclass ← readByte d (pos + 6)
  let proto ← readByte d (pos + 7)
  let number ← readByte d (pos + 2)
  .ok {
    chosen := w.chosen
    candidate := alt == 0 && class_ == 3 && subclass == 1 && proto == protocol
    number }

/-- One entry of a HID descriptor. -/
def selectEntry (d : List UInt8) (pos reportLength i : ℕ) : Except Stop ℕ := do
  let type ← readByte d (pos + 6 + 3 * i)
  if type ≠ 0x22 then .ok reportLength
  else if reportLength ≠ 0 then .error .reject
  else
    let length ← readWord d (pos + 7 + 3 * i)
    if length = 0 ∨ 4096 < length then .error .reject else .ok length

/-- A HID descriptor of a candidate. -/
def selectHid (d : List UInt8) (pos : ℕ) (w : SelectWalk) : Except Stop SelectWalk := do
  let n ← readByte d pos
  let descriptors ← if 6 ≤ n then readByte d (pos + 5) else .ok 0
  if descriptors = 0 ∨ n ≠ 6 + 3 * descriptors ∨ w.reportLength ≠ 0 then .error .reject
  else
    let reportLength ← (List.range descriptors).foldlM (selectEntry d pos) w.reportLength
    .ok { w with reportLength }

/-- `(addr & 15u) * 2u + !!(addr & 0x80u)` -/
def endpointBit (address : ℕ) : ℕ := (address &&& 15) * 2 + if address &&& 0x80 ≠ 0 then 1 else 0

/-- An endpoint descriptor of a candidate. -/
def selectEndpoint (d : List UInt8) (minPacket pos : ℕ) (w : SelectWalk) :
    Except Stop SelectWalk := do
  let address ← readByte d (pos + 2)
  let attributes ← readByte d (pos + 3)
  if w.seen &&& 1 <<< endpointBit address ≠ 0 then .error .reject
  else
    let w := { w with seen := w.seen ||| 1 <<< endpointBit address }
    if address &&& 0x80 ≠ 0 ∧ attributes = 3 then
      if w.count + 1 ≠ 1 then .error .reject
      else
        let packet ← readWord d (pos + 4)
        let interval ← readByte d (pos + 6)
        if packet < minPacket ∨ 64 < packet ∨ interval = 0 then .error .reject
        else .ok { w with count := w.count + 1, endpoint := address, packet, interval }
    else .ok w

/-- A descriptor that is no interface. -/
def selectMember (d : List UInt8) (minPacket pos type : ℕ) (w : SelectWalk) :
    Except Stop SelectWalk :=
  if w.candidate ∧ type = 0x21 then selectHid d pos w
  else if w.candidate ∧ type = 5 then selectEndpoint d minPacket pos w
  else .ok w

/-- The loop over the descriptors, with one more interface at the end. -/
def selectLoop (d : List UInt8) (protocol minPacket : ℕ) :
    ℕ → ℕ → SelectWalk → Except Stop SelectWalk
  | 0, _, _ => .error .fuel
  | fuel + 1, pos, w =>
    if pos ≤ d.length then do
      let type ← if pos < d.length then readByte d (pos + 1) else .ok 4
      if type = 4 then
        let w ← w.close
        if pos = d.length then .ok w
        else
          let w ← selectInterface d protocol pos w
          let n ← readByte d pos
          selectLoop d protocol minPacket fuel (pos + n) w
      else
        let w ← selectMember d minPacket pos type w
        let n ← readByte d pos
        selectLoop d protocol minPacket fuel (pos + n) w
    else .ok w

/-- `pi4_usb_boot_hid_select` -/
def bootHidCheck (d : List UInt8) (protocol minPacket : ℕ) : Except Stop KeyboardInterface :=
  if (protocol ≠ 1 ∧ protocol ≠ 2) ∨ minPacket < 3 ∨ 64 < minPacket then .error .reject
  else do
    let _ ← configurationCheck d 4096
    let w ← selectLoop d protocol minPacket (d.length + 1) 9 {}
    if w.chosen.found = 0 then .error .reject else .ok w.chosen

def bootHidSelect (d : List UInt8) (protocol minPacket : ℕ) :
    Except Stop (Option KeyboardInterface) :=
  answer (bootHidCheck d protocol minPacket)

/-! ## Descriptors -/

def word (r : List UInt8) (k : ℕ) : ℕ := byte r k ||| byte r (k + 1) <<< 8

def isInterface (r : List UInt8) : Bool := byte r 1 == 4

def isEndpoint (r : List UInt8) : Bool := byte r 1 == 5

def isCompanion (r : List UInt8) : Bool := byte r 1 == 48

/-- An alternate-zero interface of the bulk-only storage class. -/
def isBot (r : List UInt8) : Bool :=
  byte r 3 == 0 && byte r 5 == 8 && byte r 6 == 6 && byte r 7 == 0x50

def isIn (e : List UInt8) : Bool := byte e 2 &&& 0x80 != 0

def isBulk (e : List UInt8) : Bool := byte e 3 &&& 3 == 2

def isBulkIn (e : List UInt8) : Bool := isEndpoint e && isBulk e && isIn e

def isBulkOut (e : List UInt8) : Bool := isEndpoint e && isBulk e && !isIn e

/-- An endpoint descriptor that is valid in an interface, of storage or not. -/
structure EndpointOk (bot : Bool) (e : List UInt8) : Prop where
  size : 7 ≤ e.length
  number : byte e 2 &&& 0x0f ≠ 0
  reserved : byte e 2 &&& 0x70 = 0
  packet : bot → isBulk e → word e 4 &&& 0xf800 = 0

/-- A companion descriptor for ordinary bulk transfers. -/
structure CompanionOk (c : List UInt8) : Prop where
  size : c.length = 6
  burst : byte c 2 ≤ 15
  streams : byte c 3 ≤ 16
  low : byte c 4 = 0
  high : byte c 5 = 0

/-! ## Configurations -/

/-- An interface descriptor and the descriptors that belong to it. -/
abbrev Group := List UInt8 × List (List UInt8)

def Group.bot (g : Group) : Bool := isBot g.1

def Group.endpoints (g : Group) : List (List UInt8) := g.2.filter isEndpoint

/-- The interfaces of a configuration. -/
def groups (rs : List (List UInt8)) : List Group := (cut isInterface rs).2

/-- A group is well formed: it has the valid endpoints it declares, and in the storage interface
there is one bulk endpoint for each direction at most, and every companion comes right behind a
bulk endpoint. -/
structure GroupOk (g : Group) : Prop where
  size : 9 ≤ g.1.length
  count : g.endpoints.length = byte g.1 4
  endpoint : ∀ e ∈ g.2, isEndpoint e → EndpointOk g.bot e
  bulkIn : g.bot → (g.2.filter isBulkIn).length ≤ 1
  bulkOut : g.bot → (g.2.filter isBulkOut).length ≤ 1
  companion : g.bot → ∀ u c v, g.2 = u ++ c :: v → isCompanion c →
    CompanionOk c ∧ ∃ e ∈ u.getLast?, isEndpoint e ∧ isBulk e

/-- A configuration header that announces the length of the string. -/
structure HeaderOk (d : List UInt8) : Prop where
  size : 9 ≤ d.length
  length : byte d 0 = 9
  type : byte d 1 = 2
  total : word d 2 = d.length
  interfaces : byte d 4 ≠ 0
  value : byte d 5 ≠ 0
  attributes : byte d 7 &&& 0x80 ≠ 0

/-- The numbers of the interfaces, each of them once. -/
def interfaceNumbers (gs : List Group) : Finset ℕ := (gs.map fun g => byte g.1 2).toFinset

/-- A well-formed configuration with its descriptors. -/
structure Configuration (d : List UInt8) (rs : List (List UInt8)) : Prop where
  header : HeaderOk d
  chain : IsChain (d.drop 9) rs
  lead : ∀ r ∈ (cut isInterface rs).1, ¬isEndpoint r
  group : ∀ g ∈ groups rs, GroupOk g
  numbers : (interfaceNumbers (groups rs)).card = byte d 4
  bot : ((groups rs).filter Group.bot).length ≤ 1

/-! ## What a configuration says -/

def firstInterfaceOf (gs : List Group) : FirstInterface :=
  match gs with
  | [] => {}
  | g :: _ => ⟨byte g.1 2, byte g.1 5, byte g.1 6, byte g.1 7, byte g.1 4⟩

def firstEndpointOf (es : List (List UInt8)) : FirstEndpoint :=
  match es with
  | [] => {}
  | e :: _ => ⟨byte e 2, byte e 3, word e 4, byte e 6⟩

/-- A field of the companion, if what comes next is one. -/
def companionField (next : Option (List UInt8)) (k : ℕ) : ℕ :=
  match next with
  | some c => if isCompanion c then byte c k else UINT32_MAX
  | none => UINT32_MAX

/-- An endpoint with the descriptor that comes next. -/
def bulkRecord (e : List UInt8) (next : Option (List UInt8)) : BulkEnd where
  address := byte e 2
  attributes := byte e 3
  maxPacket := word e 4 &&& 0x07ff
  interval := byte e 6
  maxBurst := companionField next 2
  streams := companionField next 3

/-- The first endpoint of a kind, and its companion. -/
def bulkEnd (kind : List UInt8 → Bool) : List (List UInt8) → BulkEnd
  | [] => {}
  | e :: ms => if kind e then bulkRecord e ms.head? else bulkEnd kind ms

/-- The storage interface, if there is one. -/
def storage (gs : List Group) : Option Group := gs.find? Group.bot

def botInterfaceOf (g : Group) : BotInterface := ⟨byte g.1 2, byte g.1 3, byte g.1 4⟩

/-- What the configuration says, the storage interface with its own endpoints and companions. -/
def summaryOf (d : List UInt8) (rs : List (List UInt8)) : ConfigSummary where
  totalLength := d.length
  configurationValue := byte d 5
  interfaceDescriptors := (groups rs).length
  uniqueInterfaces := (interfaceNumbers (groups rs)).card
  endpointDescriptors := ((groups rs).flatMap Group.endpoints).length
  firstInterface := firstInterfaceOf (groups rs)
  firstEndpoint := firstEndpointOf ((groups rs).flatMap Group.endpoints)
  botInterfaceFound := (storage (groups rs)).isSome
  botInterface := ((storage (groups rs)).map botInterfaceOf).getD {}
  bulkIn := ((storage (groups rs)).map fun g => bulkEnd isBulkIn g.2).getD {}
  bulkOut := ((storage (groups rs)).map fun g => bulkEnd isBulkOut g.2).getD {}

end ZealBringup.Pi4
