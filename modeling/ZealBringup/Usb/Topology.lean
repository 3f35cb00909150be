import Mathlib.Algebra.Group.Nat.Defs
import Mathlib.Data.Nat.Notation
import Mathlib.Logic.Function.Basic
import Mathlib.Logic.Function.Iterate
import Mathlib.Tactic.Common

/-!
# The device tree

The bookkeeping of `usb_detach`, `usb_attach`, `usb_scan_port`, `usb_scan_topology` and `usb_poll` of
`usb_xhci.h`, with `usb_tt_child_route` of `usb_route.h`.

The invariant of the device table, and the writes of a record that keep it.

* `UsbDev`, `Topology` — a device record, and the table with the port states.
* `Answer` — what the hardware and the clock answer at one point; a run takes them one by one.
* `Moment` — the table after each write of a record, and the records that are handed out or lost.
* `usbDetach`, `usbAttach`, `usbScanPort`, `usbScanTopology`, `usbPoll` — the code.
* `usbTopologyRun` — the first scan and any number of polls behind it.
* `IsHub`, `Attached` — a hub that may have children, and a record that is placed below one.
* `TableOk` — every present device is attached, no place is taken twice, hubs have at most 15 ports
  and are at most four tiers deep, and no quarantined record is present.
* `TableOk.remove`, `TableOk.put` — a record without children is dropped, or placed.
-/

namespace ZealBringup.Usb

/-! ## Records -/

/-- The fields of `struct usb_dev` that place a device; `parent` is the index of a record. -/
structure UsbDev where
  hc : ℕ := 0
  parent : Option ℕ := none
  dma : Bool := false
  slot : ℕ := 0
  port : ℕ := 0
  speed : ℕ := 0
  present : Bool := false
  configured : Bool := false
  quarantined : Bool := false
  route : ℕ := 0
  depth : ℕ := 0
  parentPort : ℕ := 0
  ttSlot : ℕ := 0
  ttPort : ℕ := 0
  hubPorts : ℕ := 0
  hubSuperspeed : Bool := false

/-- `struct usb_port_state` but for `ready_at`. -/
structure PortState where
  connected : Bool := false
  attempted : Bool := false

/-- What `usb_enumerate` gets to know: the slot of Enable Slot, or zero; whether the device gets its
address and its descriptors are sound; whether it is a hub, with its descriptor; whether an endpoint
is of use and is configured; and whether what is behind that succeeds. -/
structure Enumeration where
  slot : ℕ
  described : Bool
  hub : Bool
  hubDescriptor : Bool
  hubPorts : ℕ
  accepted : Bool
  finished : Bool

/-- What the hardware and the clock answer at one point of a run. -/
structure Answer where
  /-- The controller runs and Disable Slot completes. -/
  disabled : Bool
  dma : Bool
  enumeration : Enumeration
  /-- The port status at the end of a reset that succeeds. -/
  reset : Option ℕ
  status : Option ℕ
  /-- The debounce time of a port is over. -/
  ready : Bool
  rescan : Bool
  pending : ℕ
  running : Bool
  /-- The controller, the device or one of its endpoints failed. -/
  failed : Bool
  topologyDue : Bool

abbrev Answers := ℕ → Answer

/-- The history of a table: a write of a record, a record that is handed out, a record whose Disable
Slot did not complete, and a recursion that is deeper than the model follows. -/
inductive Moment where
  | table (devices : ℕ → UsbDev)
  | handedOut (i : ℕ)
  | stuck (i : ℕ)
  | deep

/-- The device table of `g_usb`, with the answers that are used up and the history, the newest moment
first. The port states of a hub stand beside its record. -/
structure Topology where
  devices : ℕ → UsbDev := fun _ => {}
  deviceCount : ℕ := 0
  root : ℕ → ℕ → PortState := fun _ _ => {}
  children : ℕ → ℕ → PortState := fun _ _ => {}
  attaches : ℕ := 0
  detaches : ℕ := 0
  rejected : ℕ := 0
  errors : ℕ := 0
  answers : ℕ := 0
  log : List Moment := []

/-- `USB_DEVS`. -/
def usbDevs : ℕ := 8

/-- A write of a record. -/
def Topology.write (s : Topology) (i : ℕ) (d : UsbDev) : Topology :=
  { s with
    devices := Function.update s.devices i d
    log := .table (Function.update s.devices i d) :: s.log }

def Topology.note (s : Topology) (m : Moment) : Topology := { s with log := m :: s.log }

/-- The next answer. -/
def Topology.next (s : Topology) : Topology := { s with answers := s.answers + 1 }

/-! ## Detaching -/

/-- The end of a slot. -/
def disableSlot (env : Answers) (i : ℕ) (s : Topology) : Topology :=
  let d := s.devices i
  if d.slot = 0 then s
  else if (env s.answers).disabled then s.next.write i { d with slot := 0 }
  else (s.next.write i { d with quarantined := true }).note (.stuck i)

/-- `usb_detach` behind its children. -/
def detachRecord (env : Answers) (i : ℕ) (s : Topology) : Topology :=
  let s := s.write i { s.devices i with present := false, configured := false }
  let s := disableSlot env i s
  { s.write i { s.devices i with parent := none } with detaches := s.detaches + 1 }

/-- `usb_detach`, to a depth. -/
def usbDetach (env : Answers) : ℕ → ℕ → Topology → Topology
  | 0, _, s => s.note .deep
  | fuel + 1, i, s =>
      if (s.devices i).present = false then s
      else
        detachRecord env i <| (List.range s.deviceCount).foldl (fun s k =>
          if (s.devices k).present ∧ (s.devices k).parent = some i then usbDetach env fuel k s
          else s) s

/-! ## Attaching -/

/-- A device at a port of a hub, or of a controller. -/
def IsChild (d : UsbDev) (hc : ℕ) (parent : Option ℕ) (port : ℕ) : Prop :=
  d.present ∧ d.hc = hc ∧ d.parent = parent ∧
    (if parent.isSome then d.parentPort else d.port) = port

instance (d : UsbDev) (hc : ℕ) (parent : Option ℕ) (port : ℕ) :
    Decidable (IsChild d hc parent port) := inferInstanceAs (Decidable (_ ∧ _))

/-- `usb_child`. -/
def usbChild (s : Topology) (hc : ℕ) (parent : Option ℕ) (port : ℕ) : Option ℕ :=
  (List.range s.deviceCount).find? fun i => IsChild (s.devices i) hc parent port

/-- `struct usb_tt_route`. -/
structure UsbTtRoute where
  slot : ℕ
  port : ℕ

/-- `usb_tt_child_route`. -/
def usbTtChildRoute (parentSpeed parentSlot parentTtSlot parentTtPort childSpeed parentPort : ℕ) :
    UsbTtRoute :=
  if childSpeed > 2 then ⟨0, 0⟩
  else if parentSpeed = 3 then ⟨parentSlot, parentPort⟩
  else ⟨parentTtSlot, parentTtPort⟩

/-- The record of a new device, before its enumeration. -/
def newDevice (devices : ℕ → UsbDev) (hc : ℕ) (parent : Option ℕ) (port speed : ℕ) : UsbDev :=
  match parent with
  | none => { dma := true, hc := hc, port := port, speed := speed, present := true }
  | some p =>
      let hub := devices p
      let tt := usbTtChildRoute hub.speed hub.slot hub.ttSlot hub.ttPort speed port
      { dma := true
        hc := hc
        parent := some p
        port := hub.port
        parentPort := port
        speed := speed
        present := true
        route := hub.route ||| port <<< (hub.depth * 4) % 2 ^ 32
        depth := hub.depth + 1
        ttSlot := tt.slot
        ttPort := tt.port }

/-- `usb_enumerate`, as far as it changes the record. -/
def usbEnumerate (e : Enumeration) (d : UsbDev) : UsbDev × Bool :=
  let d := { d with slot := e.slot }
  if e.described = false then (d, false)
  else if e.hub = true ∧ d.depth ≥ 5 then (d, false)
  else if e.hub = true ∧ e.hubDescriptor = false then (d, false)
  else
    let d :=
      if e.hub then { d with hubSuperspeed := decide (d.speed ≥ 4), hubPorts := e.hubPorts } else d
    if e.hub = true ∧ (d.hubPorts = 0 ∨ d.hubPorts > 15) then (d, false)
    else if e.accepted = false then (d, false)
    else ({ d with configured := true }, e.finished)

/-- `usb_attach` with a record at hand. -/
def attachRecord (env : Answers) (i hc : ℕ) (parent : Option ℕ) (port speed : ℕ) (s : Topology) :
    Topology :=
  let d := newDevice s.devices hc parent port speed
  let s := ({ s with children := Function.update s.children i fun _ => {} }.write i d).note
    (.handedOut i)
  if speed = 0 then usbDetach env usbDevs i { s with rejected := s.rejected + 1 }
  else
    let e := usbEnumerate (env s.answers).enumeration d
    let s := s.next.write i e.1
    if e.2 then { s with attaches := s.attaches + 1 }
    else usbDetach env usbDevs i { s with rejected := s.rejected + 1 }

/-- `usb_attach`. -/
def usbAttach (env : Answers) (hc : ℕ) (parent : Option ℕ) (port speed : ℕ) (s : Topology) :
    Topology :=
  match (List.range usbDevs).find? fun i =>
      !(s.devices i).present && !(s.devices i).quarantined with
  | none => { s with rejected := s.rejected + 1 }
  | some i =>
      let s := if i ≥ s.deviceCount then { s with deviceCount := i + 1 } else s
      if (s.devices i).dma = false ∧ (env s.answers).dma = false then
        { s.next with errors := s.errors + 1 }
      else attachRecord env i hc parent port speed s.next

/-! ## Scans -/

def Topology.portState (s : Topology) (hc : ℕ) (hub : Option ℕ) (port : ℕ) : PortState :=
  match hub with
  | none => s.root hc port
  | some h => s.children h (port - 1)

def Topology.setPort (s : Topology) (hc : ℕ) (hub : Option ℕ) (port : ℕ) (st : PortState) :
    Topology :=
  match hub with
  | none => { s with root := Function.update s.root hc (Function.update (s.root hc) port st) }
  | some h =>
      { s with
        children := Function.update s.children h (Function.update (s.children h) (port - 1) st) }

/-- The speed behind a reset of a port, zero where it fails. -/
def usbResetSpeed (a : Answer) (hub : Option UsbDev) : ℕ :=
  match a.reset, hub with
  | none, _ => 0
  | some sc, none => sc >>> 10 &&& 15
  | some status, some hub =>
      if hub.hubSuperspeed then 4
      else if status.testBit 9 then 2
      else if status.testBit 10 then 3
      else 1

/-- `usb_scan_port` at a port that may be new. -/
def scanConnected (env : Answers) (hc : ℕ) (hub : Option ℕ) (port : ℕ) (boot : Bool)
    (s : Topology) : Topology :=
  if (usbChild s hc hub port).isSome ∨ (s.portState hc hub port).attempted ∨
      (boot = false ∧ (env s.answers).ready = false) then s
  else
    let s := s.setPort hc hub port { s.portState hc hub port with attempted := true }
    let speed := usbResetSpeed (env s.answers) (hub.map s.devices)
    if speed ≠ 0 then usbAttach env hc hub port speed s.next
    else { s.next with rejected := s.rejected + 1 }

/-- `usb_scan_port` at a port whose connection ended or changed: its device is dropped. -/
def dropChild (env : Answers) (hc : ℕ) (hub : Option ℕ) (port : ℕ) (connected changed : Bool)
    (s : Topology) : Topology :=
  match usbChild s hc hub port with
  | none => s
  | some child =>
      if connected = false ∨ changed = true then usbDetach env usbDevs child s else s

/-- `usb_scan_port`. -/
def usbScanPort (env : Answers) (hc : ℕ) (hub : Option ℕ) (port status : ℕ) (boot : Bool)
    (s : Topology) : Topology :=
  let connected := status.testBit 0
  let changed := status.testBit (if hub.isSome then 16 else 17)
  let s := dropChild env hc hub port connected changed s
  if connected = false then s.setPort hc hub port {}
  else if (s.portState hc hub port).connected = false ∨ changed = true then
    scanConnected env hc hub port boot (s.setPort hc hub port ⟨true, false⟩)
  else scanConnected env hc hub port boot s

/-- The root ports of a controller, while it runs. -/
def scanRootPorts (env : Answers) (boot : Bool) (hc : ℕ) : List ℕ → Topology → Topology
  | [], s => s
  | port :: ports, s =>
      let a := env s.answers
      if a.running = false then s.next
      else scanRootPorts env boot hc ports
        (usbScanPort env hc none port (a.status.getD 0) boot s.next)

/-- The ports of a hub, up to one whose status cannot be read. -/
def scanHubPorts (env : Answers) (boot rescan : Bool) (pending i : ℕ) :
    List ℕ → Topology → Topology
  | [], s => s
  | port :: ports, s =>
      let st := s.children i (port - 1)
      if rescan = false ∧ pending.testBit port = false ∧ ¬(st.connected ∧ st.attempted = false) then
        scanHubPorts env boot rescan pending i ports s
      else
        match (env s.answers).status with
        | none => s.next
        | some status => scanHubPorts env boot rescan pending i ports
            (usbScanPort env (s.devices i).hc (some i) port status boot s.next)

/-- A hub in `usb_scan_topology`. -/
def scanHub (env : Answers) (boot : Bool) (i : ℕ) (s : Topology) : Topology :=
  let hub := s.devices i
  let a := env s.answers
  if hub.present = false ∨ hub.configured = false ∨ hub.hubPorts = 0 ∨ a.running = false then s.next
  else scanHubPorts env boot (boot || a.rescan) a.pending i (List.range' 1 hub.hubPorts) s.next

/-- `usb_scan_topology`, for controllers with so many ports. -/
def usbScanTopology (env : Answers) (ports : List ℕ) (boot : Bool) (s : Topology) : Topology :=
  let s := (List.range ports.length).foldl
    (fun s hc => scanRootPorts env boot hc (List.range (ports.getD hc 0)) s) s
  (List.range usbDevs).foldl (fun s i => if i < s.deviceCount then scanHub env boot i s else s) s

/-- A device in `usb_poll`. -/
def pollDevice (env : Answers) (i : ℕ) (s : Topology) : Topology :=
  if (s.devices i).present ∧ (s.devices i).configured ∧ (env s.answers).failed then
    usbDetach env usbDevs i s.next
  else s.next

/-- `usb_poll`. -/
def usbPoll (env : Answers) (ports : List ℕ) (s : Topology) : Topology :=
  let s := (List.range usbDevs).foldl
    (fun s i => if i < s.deviceCount then pollDevice env i s else s) s
  if (env s.answers).topologyDue then usbScanTopology env ports false s.next else s.next

/-- The scan of `usb_init` and the polls behind it. -/
def usbTopologyRun (env : Answers) (ports : List ℕ) (n : ℕ) : Topology :=
  (usbPoll env ports)^[n] (usbScanTopology env ports true {})

/-! ## Sound device tables -/

variable {t : ℕ → UsbDev} {d : UsbDev} {i j k p : ℕ}

/-! ## The invariant -/

/-- A hub that may have children. -/
def IsHub (d : UsbDev) : Prop := d.present = true ∧ d.configured = true ∧ d.hubPorts ≠ 0

/-- A record at a port of a hub. -/
structure AttachedTo (q d : UsbDev) : Prop where
  hub : IsHub q
  hc : d.hc = q.hc
  port : d.port = q.port
  parentPort : 1 ≤ d.parentPort ∧ d.parentPort ≤ q.hubPorts
  depth : d.depth = q.depth + 1
  route : d.route = q.route ||| d.parentPort <<< (q.depth * 4) % 2 ^ 32
  tt : (⟨d.ttSlot, d.ttPort⟩ : UsbTtRoute) =
    usbTtChildRoute q.speed q.slot q.ttSlot q.ttPort d.speed d.parentPort
  superspeed : q.speed ≥ 4 → d.speed = 4

/-- A record at a port of a controller. -/
structure AtRoot (d : UsbDev) : Prop where
  depth : d.depth = 0
  route : d.route = 0
  tt : d.ttSlot = 0 ∧ d.ttPort = 0

/-- A record in its place. -/
def Attached (t : ℕ → UsbDev) (d : UsbDev) : Prop :=
  match d.parent with
  | none => AtRoot d
  | some p => AttachedTo (t p) d

/-- Two records of the same place. -/
def SamePlace (d e : UsbDev) : Prop :=
  d.hc = e.hc ∧ d.parent = e.parent ∧
    (if d.parent.isSome then d.parentPort = e.parentPort else d.port = e.port)

/-- The limits of a hub. -/
def HubOk (d : UsbDev) : Prop :=
  d.configured = true → d.hubPorts ≠ 0 →
    d.depth ≤ 4 ∧ d.hubPorts ≤ 15 ∧ d.hubSuperspeed = decide (d.speed ≥ 4)

/-- A sound table. -/
structure TableOk (t : ℕ → UsbDev) : Prop where
  attached : ∀ i, (t i).present = true → Attached t (t i)
  hub : ∀ i, (t i).present = true → HubOk (t i)
  unique : ∀ i j, (t i).present = true → (t j).present = true → SamePlace (t i) (t j) → i = j
  quarantined : ∀ i, (t i).quarantined = true → (t i).present = false

theorem tableOk_empty : TableOk fun _ => {} where
  attached := fun _ h => nomatch h
  hub := fun _ h => nomatch h
  unique := fun _ _ h => nomatch h
  quarantined := fun _ h => nomatch h

theorem Attached.of_parent (h : Attached t d) (hp : d.parent = some p) : AttachedTo (t p) d := by
  rw [Attached, hp] at h
  exact h

theorem Attached.of_none (h : Attached t d) (hp : d.parent = none) : AtRoot d := by
  rw [Attached, hp] at h
  exact h

theorem TableOk.parent (h : TableOk t) (hi : (t i).present = true)
    (hp : (t i).parent = some p) : AttachedTo (t p) (t i) := (h.attached i hi).of_parent hp

/-- Five tiers of hubs at most. -/
theorem TableOk.depth_le (h : TableOk t) (hi : (t i).present = true) : (t i).depth ≤ 5 := by
  cases hp : (t i).parent with
  | none =>
    rw [((h.attached i hi).of_none hp).depth]
    exact Nat.zero_le 5
  | some p =>
    have hparent := h.parent hi hp
    obtain ⟨hpresent, hconfigured, hports⟩ := hparent.hub
    have hdepth := (h.hub p hpresent hconfigured hports).1
    rw [hparent.depth]
    omega

/-- No present device is below a record. -/
def Childless (t : ℕ → UsbDev) (i : ℕ) : Prop :=
  ∀ k, (t k).present = true → (t k).parent ≠ some i

/-- A record that is not present has no children. -/
theorem TableOk.childless (h : TableOk t) (hi : (t i).present = false) : Childless t i :=
  fun k hk hp => by
    have hhub := (h.parent hk hp).hub.1
    rw [hi] at hhub
    cases hhub

/-! ## Writes -/

/-- Another record changes nothing for a device whose parent it is not. -/
theorem Attached.update (h : Attached t d) (hp : d.parent ≠ some i) (e : UsbDev) :
    Attached (Function.update t i e) d := by
  cases hparent : d.parent with
  | none =>
    rw [Attached, hparent]
    exact h.of_none hparent
  | some p =>
    have hne : p ≠ i := fun heq => hp (heq ▸ hparent)
    rw [Attached, hparent]
    dsimp only
    rw [Function.update_of_ne hne]
    exact h.of_parent hparent

/-- A record without children that is not present any more. -/
theorem TableOk.remove (h : TableOk t) (hchildless : Childless t i) (hd : d.present = false) :
    TableOk (Function.update t i d) := by
  have hother : ∀ k, (Function.update t i d k).present = true →
      k ≠ i ∧ Function.update t i d k = t k := fun k hk => by
    by_cases hki : k = i
    · rw [hki, Function.update_self, hd] at hk
      cases hk
    · exact ⟨hki, Function.update_of_ne hki _ _⟩
  refine ⟨fun k hk => ?_, fun k hk => ?_, fun k l hk hl hsame => ?_, fun k hk => ?_⟩
  · obtain ⟨-, heq⟩ := hother k hk
    rw [heq] at hk ⊢
    exact (h.attached k hk).update (hchildless k hk) d
  · obtain ⟨-, heq⟩ := hother k hk
    rw [heq] at hk ⊢
    exact h.hub k hk
  · obtain ⟨-, heq⟩ := hother k hk
    obtain ⟨-, heq'⟩ := hother l hl
    rw [heq] at hk hsame
    rw [heq'] at hl hsame
    exact h.unique k l hk hl hsame
  · by_cases hki : k = i
    · rw [hki, Function.update_self]
      exact hd
    · rw [Function.update_of_ne hki] at hk ⊢
      exact h.quarantined k hk

theorem TableOk.put (h : TableOk t) (hchildless : Childless t i) (hattached : Attached t d)
    (hself : d.parent ≠ some i) (hhub : HubOk d) (hquarantined : d.quarantined = false)
    (hplace : ∀ k, k ≠ i → (t k).present = true → ¬SamePlace d (t k)) :
    TableOk (Function.update t i d) := by
  have hsymm : ∀ {e e' : UsbDev}, SamePlace e e' → SamePlace e' e := fun {e e'} hsame => by
    obtain ⟨hhc, hparent, hport⟩ := hsame
    refine ⟨hhc.symm, hparent.symm, ?_⟩
    rw [← hparent]
    split at hport
    · next hsome => rw [if_pos hsome, hport]
    · next hnone => rw [if_neg hnone, hport]
  refine ⟨fun k hk => ?_, fun k hk => ?_, fun k l hk hl hsame => ?_, fun k hk => ?_⟩
  · by_cases hki : k = i
    · rw [hki, Function.update_self]
      exact hattached.update hself d
    · rw [Function.update_of_ne hki] at hk ⊢
      exact (h.attached k hk).update (hchildless k hk) d
  · by_cases hki : k = i
    · rw [hki, Function.update_self]
      exact hhub
    · rw [Function.update_of_ne hki] at hk ⊢
      exact h.hub k hk
  · by_cases hki : k = i
    · by_cases hli : l = i
      · rw [hki, hli]
      · rw [hki, Function.update_self, Function.update_of_ne hli] at hsame
        rw [Function.update_of_ne hli] at hl
        exact absurd hsame (hplace l hli hl)
    · rw [Function.update_of_ne hki] at hk hsame
      by_cases hli : l = i
      · rw [hli, Function.update_self] at hsame
        exact absurd (hsymm hsame) (hplace k hki hk)
      · rw [Function.update_of_ne hli] at hl hsame
        exact h.unique k l hk hl hsame
  · by_cases hki : k = i
    · rw [hki, Function.update_self, hquarantined] at hk
      cases hk
    · rw [Function.update_of_ne hki] at hk ⊢
      exact h.quarantined k hk

end ZealBringup.Usb
