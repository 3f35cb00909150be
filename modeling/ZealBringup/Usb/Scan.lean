import Mathlib.Data.List.Range
import ZealBringup.Usb.Attach

/-!
# Scans

The scans and the polls keep the device table sound.

* `HubStays` — a scan of a port leaves its hub as it is.
* `usbScanPort_ok`, `scanHubPorts_ok` — a port, and the ports of a hub.
* `usbTopologyRun_ok` — the table after the first scan and any number of polls.
-/

namespace ZealBringup.Usb

variable {s s' : Topology} {i k hc port pending : ℕ} {hub : Option ℕ} {boot rescan : Bool}

/-- A sound table, in which the hub at hand is as before. -/
def HubStays (hub : Option ℕ) (s s' : Topology) : Prop :=
  TopologyOk s' ∧ ∀ p, hub = some p → s'.devices p = s.devices p

theorem HubStays.trans {s'' : Topology} (h : HubStays hub s s') (h' : HubStays hub s' s'') :
    HubStays hub s s'' := ⟨h'.1, fun p hp => (h'.2 p hp).trans (h.2 p hp)⟩

theorem HubPort.stays (h : HubPort s.devices hc hub port) (hstays : HubStays hub s s') :
    HubPort s'.devices hc hub port := fun p hp => by
  rw [hstays.2 p hp]
  exact h p hp

/-! ## Ports -/

@[simp] theorem setPort_devices (s : Topology) (hc : ℕ) (hub : Option ℕ) (port : ℕ)
    (st : PortState) : (s.setPort hc hub port st).devices = s.devices := by cases hub <;> rfl

@[simp] theorem setPort_deviceCount (s : Topology) (hc : ℕ) (hub : Option ℕ) (port : ℕ)
    (st : PortState) : (s.setPort hc hub port st).deviceCount = s.deviceCount := by
  cases hub <;> rfl

@[simp] theorem setPort_log (s : Topology) (hc : ℕ) (hub : Option ℕ) (port : ℕ)
    (st : PortState) : (s.setPort hc hub port st).log = s.log := by cases hub <;> rfl

theorem TopologyOk.setPort (h : TopologyOk s) (hc : ℕ) (hub : Option ℕ) (port : ℕ)
    (st : PortState) : TopologyOk (s.setPort hc hub port st) :=
  h.congr (setPort_devices ..) (Nat.le_of_eq (setPort_deviceCount ..).symm) (setPort_log ..)

theorem usbChild_some (h : usbChild s hc hub port = some k) :
    (s.devices k).present = true ∧ (s.devices k).parent = hub := by
  rw [usbChild] at h
  have hchild := List.find?_some h
  obtain ⟨hpresent, -, hparent, -⟩ := of_decide_eq_true hchild
  exact ⟨hpresent, hparent⟩

/-- Behind a port of a SuperSpeed hub there are SuperSpeed devices. -/
theorem usbResetSpeed_ok (h : TopologyOk s) (hport : HubPort s.devices hc hub port) (a : Answer)
    (hspeed : usbResetSpeed a (hub.map s.devices) ≠ 0) :
    SpeedOk s.devices hub (usbResetSpeed a (hub.map s.devices)) := by
  rintro p rfl hfast
  obtain ⟨hpresent, hconfigured, hports⟩ := (hport p rfl).1
  have hsuper := (h.table.hub p hpresent hconfigured hports).2.2
  rw [decide_eq_true hfast] at hsuper
  revert hspeed
  rw [Option.map_some]
  unfold usbResetSpeed
  cases a.reset with
  | none => exact fun hspeed => absurd rfl hspeed
  | some st =>
    dsimp only
    rw [if_pos hsuper]
    exact fun _ => rfl

theorem scanConnected_ok (env : Answers) (h : TopologyOk s)
    (hport : HubPort s.devices hc hub port) :
    HubStays hub s (scanConnected env hc hub port boot s) := by
  rw [scanConnected]
  split
  · exact ⟨h, fun _ _ => rfl⟩
  next hnew =>
  have hmid := h.setPort hc hub port { s.portState hc hub port with attempted := true }
  have hdevices := setPort_devices s hc hub port
    { s.portState hc hub port with attempted := true }
  have hcount := setPort_deviceCount s hc hub port
    { s.portState hc hub port with attempted := true }
  generalize s.setPort hc hub port { s.portState hc hub port with attempted := true } = mid at *
  dsimp only
  split
  · next hspeed =>
    have hfree : usbChild mid.next hc hub port = none := by
      have hsame : usbChild mid.next hc hub port = usbChild s hc hub port := by
        rw [usbChild, usbChild, next_devices, hdevices]
        exact congrArg (fun n => (List.range n).find? _) hcount
      rw [hsame]
      exact Option.not_isSome_iff_eq_none.1 fun hsome => hnew (.inl hsome)
    have hport' : HubPort mid.next.devices hc hub port := by
      rw [next_devices, hdevices]
      exact hport
    have hspeedOk : SpeedOk mid.next.devices hub
        (usbResetSpeed (env mid.answers) (hub.map mid.devices)) := by
      have hpm : HubPort mid.devices hc hub port := by
        rw [hdevices]
        exact hport
      exact usbResetSpeed_ok hmid hpm _ hspeed
    obtain ⟨hok, hstays⟩ := usbAttach_ok env hmid.next hport' hspeedOk hfree
    exact ⟨hok, fun p hp => (hstays p hp).trans (congrFun hdevices p)⟩
  · exact ⟨hmid.congr rfl (Nat.le_refl _) rfl, fun p _ => congrFun hdevices p⟩

theorem dropChild_ok (env : Answers) (hc : ℕ) (hub : Option ℕ) (port : ℕ) (h : TopologyOk s)
    (connected changed : Bool) :
    HubStays hub s (dropChild env hc hub port connected changed s) := by
  rw [dropChild]
  cases hchild : usbChild s hc hub port with
  | none => exact ⟨h, fun _ _ => rfl⟩
  | some k =>
    dsimp only
    split
    · obtain ⟨hpresent, hparent⟩ := usbChild_some hchild
      obtain ⟨hok, hremoves, -⟩ := usbDetach_ok env usbDevs h hpresent
        (Nat.le_trans (by decide) (Nat.le_add_right 8 _))
      refine ⟨hok, fun p hp => hremoves.stays ?_⟩
      have hdepth := (h.table.parent hpresent (hparent.trans hp)).depth
      omega
    · exact ⟨h, fun _ _ => rfl⟩

/-- **A port is scanned**, and its hub stays. -/
theorem usbScanPort_ok (env : Answers) (status : ℕ) (boot : Bool) (h : TopologyOk s)
    (hport : HubPort s.devices hc hub port) :
    HubStays hub s (usbScanPort env hc hub port status boot s) := by
  rw [usbScanPort]
  generalize status.testBit 0 = connected
  generalize status.testBit (if hub.isSome then 16 else 17) = changed
  have hdrop := dropChild_ok env hc hub port h connected changed
  generalize dropChild env hc hub port connected changed s = mid at *
  have hset : ∀ st, HubStays hub mid (mid.setPort hc hub port st) := fun st =>
    ⟨hdrop.1.setPort hc hub port st, fun p _ => congrFun (setPort_devices ..) p⟩
  split
  · exact hdrop.trans (hset _)
  split
  · exact (hdrop.trans (hset _)).trans
      (scanConnected_ok env (hset _).1 (hport.stays (hdrop.trans (hset _))))
  · exact hdrop.trans (scanConnected_ok env hdrop.1 (hport.stays hdrop))

theorem scanRootPorts_ok (env : Answers) (boot : Bool) (hc : ℕ) (ports : List ℕ)
    (h : TopologyOk s) : TopologyOk (scanRootPorts env boot hc ports s) := by
  induction ports generalizing s with
  | nil => exact h
  | cons port ports ih =>
    rw [scanRootPorts]
    split
    · exact h.next
    · exact ih (usbScanPort_ok env _ boot h.next fun p hp => by cases hp).1

theorem scanHubPorts_ok (env : Answers) (ports : List ℕ) (h : TopologyOk s)
    (hhub : IsHub (s.devices i))
    (hports : ∀ port ∈ ports, 1 ≤ port ∧ port ≤ (s.devices i).hubPorts) :
    TopologyOk (scanHubPorts env boot rescan pending i ports s) := by
  induction ports generalizing s with
  | nil => exact h
  | cons port ports ih =>
    have hrest : ∀ port ∈ ports, 1 ≤ port ∧ port ≤ (s.devices i).hubPorts :=
      fun port hmem => hports port (List.mem_cons_of_mem _ hmem)
    rw [scanHubPorts]
    split
    · exact ih h hhub hrest
    cases (env s.answers).status with
    | none => exact h.next
    | some status =>
      have hport : HubPort s.next.devices (s.devices i).hc (some i) port := fun p hp => by
        obtain rfl := Option.some.inj hp
        exact ⟨hhub, rfl, hports port (List.mem_cons_self ..)⟩
      obtain ⟨hok, hstays⟩ := usbScanPort_ok env status boot h.next hport
      have hsame := hstays i rfl
      rw [next_devices] at hsame
      exact ih hok (by rw [hsame]; exact hhub) (by rw [hsame]; exact hrest)

theorem scanHub_ok (env : Answers) (boot : Bool) (i : ℕ) (h : TopologyOk s) :
    TopologyOk (scanHub env boot i s) := by
  rw [scanHub]
  split
  · exact h.next
  · next hhub =>
    simp only [not_or, Bool.not_eq_false] at hhub
    refine scanHubPorts_ok env _ h.next ⟨hhub.1, hhub.2.1, hhub.2.2.1⟩ fun port hport => ?_
    rw [List.mem_range'_1] at hport
    rw [next_devices]
    omega

/-! ## Runs -/

/-- A loop whose turns keep the table sound. -/
theorem foldl_ok (turn : Topology → ℕ → Topology)
    (hturn : ∀ s i, TopologyOk s → TopologyOk (turn s i)) (is : List ℕ) (h : TopologyOk s) :
    TopologyOk (is.foldl turn s) := by
  induction is generalizing s with
  | nil => exact h
  | cons i is ih => exact ih (hturn s i h)

theorem usbScanTopology_ok (env : Answers) (ports : List ℕ) (boot : Bool) (h : TopologyOk s) :
    TopologyOk (usbScanTopology env ports boot s) := by
  rw [usbScanTopology]
  refine foldl_ok _ (fun s i hs => ?_) _
    (foldl_ok _ (fun s hc hs => scanRootPorts_ok env boot hc _ hs) _ h)
  split
  · exact scanHub_ok env boot i hs
  · exact hs

theorem pollDevice_ok (env : Answers) (i : ℕ) (h : TopologyOk s) :
    TopologyOk (pollDevice env i s) := by
  rw [pollDevice]
  split
  · next hfailed =>
    exact (usbDetach_ok env usbDevs h.next hfailed.1
      (Nat.le_trans (by decide) (Nat.le_add_right 8 _))).1
  · exact h.next

theorem usbPoll_ok (env : Answers) (ports : List ℕ) (h : TopologyOk s) :
    TopologyOk (usbPoll env ports s) := by
  have hmid : TopologyOk ((List.range usbDevs).foldl
      (fun s i => if i < s.deviceCount then pollDevice env i s else s) s) :=
    foldl_ok _ (fun s i hs => by
      split
      · exact pollDevice_ok env i hs
      · exact hs) _ h
  rw [usbPoll]
  split
  · exact usbScanTopology_ok env ports false hmid.next
  · exact hmid.next

theorem usbTopologyRun_succ (env : Answers) (ports : List ℕ) (n : ℕ) :
    usbTopologyRun env ports (n + 1) = usbPoll env ports (usbTopologyRun env ports n) :=
  Function.iterate_succ_apply' ..

/-- **The table is sound** after the first scan and any number of polls, and was so before. -/
theorem usbTopologyRun_ok (env : Answers) (ports : List ℕ) (n : ℕ) :
    TopologyOk (usbTopologyRun env ports n) := by
  induction n with
  | zero =>
    rw [usbTopologyRun, Function.iterate_zero, id]
    exact usbScanTopology_ok env ports true topologyOk_start
  | succ n ih =>
    rw [usbTopologyRun_succ]
    exact usbPoll_ok env ports ih

end ZealBringup.Usb
