import Mathlib.Tactic.SplitIfs
import ZealBringup.Usb.Detach

/-!
# Attaching

`usb_attach` keeps the device table sound, at every write.

* `HubPort`, `SpeedOk` — what `usb_scan_port` knows of a port and of the speed behind it.
* `newDevice_attached`, `newDevice_place` — a new device is in its place, which no other has.
* `usbAttach_ok` — a device is placed at a port that is free, or the table stays as it is.
-/

namespace ZealBringup.Usb

variable {s : Topology} {d : UsbDev} {i k hc port speed : ℕ} {parent : Option ℕ}

/-! ## New devices -/

/-- A port of a controller, or of a hub that may have children. -/
def HubPort (t : ℕ → UsbDev) (hc : ℕ) (parent : Option ℕ) (port : ℕ) : Prop :=
  ∀ p, parent = some p → IsHub (t p) ∧ hc = (t p).hc ∧ 1 ≤ port ∧ port ≤ (t p).hubPorts

/-- The speed of a device below a SuperSpeed hub. -/
def SpeedOk (t : ℕ → UsbDev) (parent : Option ℕ) (speed : ℕ) : Prop :=
  ∀ p, parent = some p → (t p).speed ≥ 4 → speed = 4

theorem newDevice_attached {t : ℕ → UsbDev} (hport : HubPort t hc parent port)
    (hspeed : SpeedOk t parent speed) : Attached t (newDevice t hc parent port speed) := by
  cases parent with
  | none => exact ⟨rfl, rfl, rfl, rfl⟩
  | some p =>
    obtain ⟨hhub, hhc, hports⟩ := hport p rfl
    exact ⟨hhub, hhc, rfl, hports, rfl, rfl, rfl, hspeed p rfl⟩

theorem newDevice_fields (t : ℕ → UsbDev) (hc : ℕ) (parent : Option ℕ) (port speed : ℕ) :
    (newDevice t hc parent port speed).parent = parent ∧
      (newDevice t hc parent port speed).hc = hc ∧
      (if parent.isSome then (newDevice t hc parent port speed).parentPort
        else (newDevice t hc parent port speed).port) = port ∧
      (newDevice t hc parent port speed).present = true ∧
      (newDevice t hc parent port speed).quarantined = false ∧
      (newDevice t hc parent port speed).configured = false ∧
      (newDevice t hc parent port speed).hubPorts = 0 := by
  cases parent <;> exact ⟨rfl, rfl, rfl, rfl, rfl, rfl, rfl⟩

/-- A free port is the place of no device. -/
theorem newDevice_place (h : TopologyOk s) (hfree : usbChild s hc parent port = none)
    (hk : (s.devices k).present = true) :
    ¬SamePlace (newDevice s.devices hc parent port speed) (s.devices k) := by
  rintro ⟨hhc, hparent, hport⟩
  obtain ⟨hparent', hhc', hport', -⟩ := newDevice_fields s.devices hc parent port speed
  rw [usbChild, List.find?_eq_none] at hfree
  refine hfree k (List.mem_range.2 (h.count k hk)) (decide_eq_true ⟨hk, ?_, ?_, ?_⟩)
  · rw [← hhc, hhc']
  · rw [← hparent, hparent']
  · rw [hparent'] at hport
    rw [← hport']
    split at hport
    · next hsome => rw [if_pos hsome, if_pos hsome, hport]
    · next hnone => rw [if_neg hnone, if_neg hnone, hport]

/-- A record in the same place, with another slot and other fields of a hub. -/
def SameButHub (d e : UsbDev) : Prop :=
  ∃ slot configured hubPorts superspeed, e =
    { d with
      slot := slot
      configured := configured
      hubPorts := hubPorts
      hubSuperspeed := superspeed }

theorem SameButHub.refl (d : UsbDev) : SameButHub d d := ⟨_, _, _, _, rfl⟩

theorem usbEnumerate_place (e : Enumeration) (d : UsbDev) : SameButHub d (usbEnumerate e d).1 := by
  rw [usbEnumerate]
  dsimp only
  cases e.hub with
  | false => split_ifs <;> exact ⟨_, _, _, _, rfl⟩
  | true => split_ifs <;> exact ⟨_, _, _, _, rfl⟩

/-- A hub that is enumerated is within its limits. -/
theorem usbEnumerate_hubOk (e : Enumeration) (hconfigured : d.configured = false)
    (hports : d.hubPorts = 0) : HubOk (usbEnumerate e d).1 := by
  have hno : ∀ {d' : UsbDev}, d'.configured = false → HubOk d' := fun h0 h1 => by
    rw [h0] at h1
    cases h1
  rw [usbEnumerate]
  dsimp only
  split
  · exact hno hconfigured
  split
  · exact hno hconfigured
  next hdepth =>
  split
  · exact hno hconfigured
  cases hhub : e.hub with
  | false =>
    rw [if_neg Bool.false_ne_true, if_neg (fun h0 => Bool.false_ne_true h0.1)]
    split
    · exact hno hconfigured
    · exact fun _ h0 => absurd hports h0
  | true =>
    rw [if_pos rfl]
    dsimp only
    split
    · exact hno hconfigured
    next hlimits =>
    split
    · exact hno hconfigured
    · refine fun _ _ => ⟨?_, ?_, rfl⟩
      · dsimp only
        exact Nat.le_of_not_lt fun h0 => hdepth ⟨hhub, h0⟩
      · dsimp only
        exact Nat.le_of_not_lt fun h0 => hlimits ⟨rfl, .inr h0⟩

/-! ## The table -/

/-- A record with the place of a new device at a free port keeps the table sound. -/
theorem put_newDevice (h : TopologyOk s) {t : ℕ → UsbDev} (ht : TableOk t)
    (hsame : ∀ k, k ≠ i → t k = s.devices k) (hchildless : Childless t i)
    (hi : (s.devices i).present = false) (hport : HubPort s.devices hc parent port)
    (hspeed : SpeedOk s.devices parent speed) (hfree : usbChild s hc parent port = none)
    (hd : SameButHub (newDevice s.devices hc parent port speed) d) (hhub : HubOk d) :
    TableOk (Function.update t i d) := by
  obtain ⟨hparent, -, -, -, hquarantined, -, -⟩ :=
    newDevice_fields s.devices hc parent port speed
  have hne : ∀ p, parent = some p → p ≠ i := fun p hp heq => by
    have hpresent := (hport p hp).1.1
    rw [heq, hi] at hpresent
    cases hpresent
  have hattached := newDevice_attached hport hspeed
  obtain ⟨slot, configured, hubPorts, superspeed, rfl⟩ := hd
  refine ht.put hchildless ?_ ?_ hhub hquarantined fun k hk hpresent hplace => ?_
  · cases parent with
    | none => exact ⟨hattached.depth, hattached.route, hattached.tt⟩
    | some p =>
      have hp : AttachedTo (t p) (newDevice s.devices hc (some p) port speed) := by
        rw [hsame p (hne p rfl)]
        exact hattached
      exact ⟨hp.hub, hp.hc, hp.port, hp.parentPort, hp.depth, hp.route, hp.tt, hp.superspeed⟩
  · dsimp only
    rw [hparent]
    exact fun h0 => hne i h0 rfl
  · rw [hsame k hk] at hpresent hplace
    exact newDevice_place h hfree hpresent hplace

/-- A new device is dropped again, and its parent stays. -/
theorem dropNew_ok (env : Answers) {u : Topology} (h : TopologyOk u)
    (hi : (u.devices i).present = true) (hp : (u.devices i).parent = parent) (rejected : ℕ) :
    TopologyOk (usbDetach env usbDevs i { u with rejected := rejected }) ∧
      ∀ p, parent = some p →
        (usbDetach env usbDevs i { u with rejected := rejected }).devices p = u.devices p := by
  obtain ⟨hok, hremoves, -⟩ := usbDetach_ok env usbDevs
    (h.congr rfl (Nat.le_refl _) rfl : TopologyOk { u with rejected := rejected }) hi
    (Nat.le_trans (by decide) (Nat.le_add_right 8 _))
  refine ⟨hok, fun p hparent => hremoves.stays ?_⟩
  have hdepth := (h.table.parent hi (hp.trans hparent)).depth
  dsimp only
  omega

/-- A record is handed out and enumerated, or dropped again. -/
theorem attachRecord_ok (env : Answers) (h : TopologyOk s) (hi : (s.devices i).present = false)
    (hquarantined : (s.devices i).quarantined = false) (hcount : i < s.deviceCount)
    (hport : HubPort s.devices hc parent port) (hspeed : SpeedOk s.devices parent speed)
    (hfree : usbChild s hc parent port = none) :
    TopologyOk (attachRecord env i hc parent port speed s) ∧
      ∀ p, parent = some p →
        (attachRecord env i hc parent port speed s).devices p = s.devices p := by
  obtain ⟨hparent, -, -, hpresent, hclean, hconfigured, hports⟩ :=
    newDevice_fields s.devices hc parent port speed
  have hne : ∀ p, parent = some p → p ≠ i := fun p hp heq => by
    have hhub := (hport p hp).1.1
    rw [heq, hi] at hhub
    cases hhub
  have hchildless := h.table.childless hi
  have hplain : HubOk (newDevice s.devices hc parent port speed) := fun h0 => by
    rw [hconfigured] at h0
    cases h0
  have hput := put_newDevice h h.table (fun _ _ => rfl) hchildless hi hport hspeed hfree (.refl _)
    hplain
  have hvariant := usbEnumerate_place (env s.answers).enumeration
    (newDevice s.devices hc parent port speed)
  have hhub := usbEnumerate_hubOk (env s.answers).enumeration hconfigured hports
  have hputHub : ∀ {t : ℕ → UsbDev}, TableOk t → (∀ k, k ≠ i → t k = s.devices k) →
      Childless t i → TableOk (Function.update t i (usbEnumerate (env s.answers).enumeration
        (newDevice s.devices hc parent port speed)).1) := fun ht hsame hchildless' =>
    put_newDevice h ht hsame hchildless' hi hport hspeed hfree hvariant hhub
  rw [attachRecord]
  generalize newDevice s.devices hc parent port speed = d at *
  -- the record as it is handed out
  have hstart : TopologyOk ((({ s with
      children := Function.update s.children i fun _ => {} } : Topology).write i d).note
        (.handedOut i)) := by
    have hs : TopologyOk { s with children := Function.update s.children i fun _ => {} } :=
      h.congr rfl (Nat.le_refl _) rfl
    refine (hs.write hput (fun _ => hcount) fun hq => ?_).noteHandedOut ?_
    · have hq' : (s.devices i).quarantined = true := hq
      rw [hquarantined] at hq'
      cases hq'
    · rw [write_devices, Function.update_self]
      exact hclean
  have hdevices : ((({ s with
      children := Function.update s.children i fun _ => {} } : Topology).write i d).note
        (.handedOut i)).devices = Function.update s.devices i d := rfl
  have hanswers : ((({ s with
      children := Function.update s.children i fun _ => {} } : Topology).write i d).note
        (.handedOut i)).answers = s.answers := rfl
  have hcount' : ((({ s with
      children := Function.update s.children i fun _ => {} } : Topology).write i d).note
        (.handedOut i)).deviceCount = s.deviceCount := rfl
  generalize (({ s with children := Function.update s.children i fun _ => {} } :
    Topology).write i d).note (.handedOut i) = u at *
  have hself : u.devices i = d := by rw [hdevices, Function.update_self]
  have hother : ∀ k, k ≠ i → u.devices k = s.devices k := fun k hk => by
    rw [hdevices, Function.update_of_ne hk]
  dsimp only
  split
  · obtain ⟨hok, hstays⟩ := dropNew_ok env hstart (by rw [hself, hpresent]) (by rw [hself, hparent])
      (u.rejected + 1)
    exact ⟨hok, fun p hp => (hstays p hp).trans (hother p (hne p hp))⟩
  rw [hanswers]
  have hchildless' : Childless u.devices i := fun k hk hp => by
    by_cases hki : k = i
    · rw [hki, hself, hparent] at hp
      exact hne i hp rfl
    · rw [hother k hki] at hk hp
      exact hchildless k hk hp
  -- the record behind its enumeration
  have hnext : TopologyOk (u.next.write i (usbEnumerate (env s.answers).enumeration d).1) := by
    refine hstart.next.write (hputHub hstart.table hother hchildless') (fun _ => ?_) fun hq => ?_
    · exact hcount'.symm ▸ hcount
    · rw [next_devices, hself, hclean] at hq
      cases hq
  have hself' : (u.next.write i (usbEnumerate (env s.answers).enumeration d).1).devices i =
      (usbEnumerate (env s.answers).enumeration d).1 := Function.update_self ..
  have hother' : ∀ k, k ≠ i → (u.next.write i
      (usbEnumerate (env s.answers).enumeration d).1).devices k = s.devices k := fun k hk =>
    (Function.update_of_ne hk _ _).trans (hother k hk)
  obtain ⟨slot, configured, hubPorts, superspeed, henumerate⟩ := hvariant
  split
  · exact ⟨hnext.congr rfl (Nat.le_refl _) rfl, fun p hp => hother' p (hne p hp)⟩
  · have hparent' : (usbEnumerate (env s.answers).enumeration d).1.parent = parent := by
      rw [henumerate]
      exact hparent
    obtain ⟨hok, hstays⟩ := dropNew_ok env hnext (by rw [hself', henumerate]; exact hpresent)
      (by rw [hself', hparent']) (u.rejected + 1)
    exact ⟨hok, fun p hp => (hstays p hp).trans (hother' p (hne p hp))⟩

/-- **A device is placed at a free port**, or the table stays as it is. -/
theorem usbAttach_ok (env : Answers) (h : TopologyOk s) (hport : HubPort s.devices hc parent port)
    (hspeed : SpeedOk s.devices parent speed) (hfree : usbChild s hc parent port = none) :
    TopologyOk (usbAttach env hc parent port speed s) ∧
      ∀ p, parent = some p →
        (usbAttach env hc parent port speed s).devices p = s.devices p := by
  rw [usbAttach]
  cases hfind : (List.range usbDevs).find? fun i =>
      !(s.devices i).present && !(s.devices i).quarantined with
  | none => exact ⟨h.congr rfl (Nat.le_refl _) rfl, fun _ _ => rfl⟩
  | some i =>
    have hfound := List.find?_some hfind
    rw [Bool.and_eq_true, Bool.not_eq_true', Bool.not_eq_true'] at hfound
    obtain ⟨hi, hquarantined⟩ := hfound
    -- the record is in the part of the table that is searched
    obtain ⟨u, hu, hdevices, hlog, hle, hcount⟩ : ∃ u : Topology,
        (if i ≥ s.deviceCount then { s with deviceCount := i + 1 } else s) = u ∧
        u.devices = s.devices ∧ u.log = s.log ∧ s.deviceCount ≤ u.deviceCount ∧
        i < u.deviceCount := by
      refine ⟨_, rfl, ?_⟩
      split
      · exact ⟨rfl, rfl, by dsimp only; omega, Nat.lt_succ_self i⟩
      · exact ⟨rfl, rfl, Nat.le_refl _, by omega⟩
    have hok : TopologyOk u := h.congr hdevices hle hlog
    dsimp only
    rw [hu]
    split
    · exact ⟨hok.congr rfl (Nat.le_refl _) rfl, fun p _ => congrFun hdevices p⟩
    have hfree' : usbChild u.next hc parent port = none := by
      rw [usbChild, List.find?_eq_none] at hfree ⊢
      intro k _ hchild
      rw [next_devices, hdevices] at hchild
      exact hfree k (List.mem_range.2 (h.count k (of_decide_eq_true hchild).1)) hchild
    obtain ⟨hok', hstays⟩ := attachRecord_ok env hok.next
      (by rw [next_devices, hdevices]; exact hi)
      (by rw [next_devices, hdevices]; exact hquarantined) hcount
      (by rw [next_devices, hdevices]; exact hport)
      (by rw [next_devices, hdevices]; exact hspeed) hfree'
    exact ⟨hok', fun p hp => (hstays p hp).trans (congrFun hdevices p)⟩

end ZealBringup.Usb
