import ZealBringup.Blk.Requests
import ZealBringup.Install.Image
import ZealBringup.Store.Guest

/-!
# Bringing the disk up

`virtio_blk_init` of `virtio_blk.h` with `vb_init_mmio`, `vb_init_pci` and `virtio_blk_probe_rw`, on
what the registers of a machine say and what its disk makes of the two requests of the probe.

* `vbWindow` — the RedSea window of a PCI disk, by its size.
* `vbSetUp`, `virtioBlkProbeRw`, `virtioBlkInit` — the transport, the probe and both.
* `vbSetUp_window` — the window lies on the disk, and is where it is for its size.
* `virtioBlkInit_disks` — the only sector that may change is number 15 of the window.
-/

namespace ZealBringup.Blk

open Overlay Store

/-! ## Where the window is -/

/-- `ZEAL_OLD_DISK_SECTS`. -/
def zealOldDiskSects : ℕ := 131072

/-- `ZEAL_GPT_BACKUP_SECTS`. -/
def zealGptBackupSects : ℕ := 34

/-- `VB_RS_SECTS`. -/
def vbRsSects : ℕ := 128

/-- `VB_RS_LBA_BASE`. -/
def vbRsLbaBase : ℕ := 130911

/-- The base and the sectors of the window of a PCI disk. -/
def vbWindow (fullCap : ℕ) : ℕ × ℕ :=
  if fullCap > vbRsSects then
    (if fullCap = Install.zealDiskSects ∨ fullCap = zealOldDiskSects then vbRsLbaBase
      else if fullCap > zealGptBackupSects + vbRsSects then
        fullCap - zealGptBackupSects - vbRsSects + 1
      else fullCap - vbRsSects,
      vbRsSects)
  else (0, fullCap)

/-! ## The machine -/

/-- What the registers of an MMIO slot say; `featuresOk` is whether the status reads back with
`VB_S_FEATURES_OK`. -/
structure VbSlot where
  magic : ℕ
  version : ℕ
  deviceId : ℕ
  capacity : ℕ
  queueNumMax : ℕ
  featuresOk : Bool

/-- What a function of the PCI bus says; `caps` is what `vb_pci_find_caps` returns, `resets` whether the
status reads back 0 in time, and `queueWritten` the size of the queue after `VB_QSIZE` was written. -/
structure VbFunction where
  vendor : ℕ
  device : ℕ
  caps : Bool
  capacity : ℕ
  resets : Bool
  featuresOk : Bool
  flushFeature : Bool
  queueMax : ℕ
  queueWritten : ℕ

/-- A machine: the bus address of `g_vb_dma`, the MMIO slots, whether `mmio_map_pci_ecam` succeeds, and
the devices of bus 0. -/
structure VbMachine where
  dma : ℕ
  slots : List VbSlot
  ecam : Bool
  functions : List VbFunction

/-- The place of a disk. -/
inductive VbAt where
  | mmio (slot : ℕ)
  | pci (dev : ℕ)
  deriving DecidableEq

/-! ## The transport -/

/-- The loop over the MMIO slots: the smallest block device of at least 16 sectors. -/
def vbBest (i : ℕ) (best : Option (ℕ × VbSlot)) (bestCap : ℕ) : List VbSlot → Option (ℕ × VbSlot)
  | [] => best
  | m :: slots =>
    if m.magic ≠ 0x74726976 ∨ (m.version ≠ 1 ∧ m.version ≠ 2) ∨ m.deviceId ≠ 2 ∨ m.capacity < 16 ∨
        m.capacity ≥ bestCap then
      vbBest (i + 1) best bestCap slots
    else vbBest (i + 1) (some (i, m)) m.capacity slots

/-- The bytes of `g_vb_dma` from `d->data` on. -/
def vbDataCapacity (version : ℕ) : ℕ := if version = 2 then 65536 - (12288 + 32) else 65536 - (8192 + 32)

/-- `vb_init_mmio`; nothing sets `flush_supported`. -/
def vbInitMmio (dma : ℕ) (m : VbSlot) : Option VbDev :=
  if m.queueNumMax < 8 then none
  else if m.version = 2 ∧ m.featuresOk = false then none
  else if m.version ≠ 2 ∧ dma / 2 ^ 12 / 2 ^ 32 ≠ 0 then none
  else if m.capacity < 16 then none
  else
    some ⟨false, true, false, false, if m.capacity > vbRsSects then vbRsSects else m.capacity,
      m.capacity, 0, vbDataCapacity m.version⟩

/-- The loop over the devices of bus 0: the first virtio block device. -/
def vbPciFind (dev : ℕ) : List VbFunction → Option (ℕ × VbFunction)
  | [] => none
  | f :: functions =>
    if f.vendor = 0xffff ∨ f.vendor = 0 ∨ f.vendor ≠ 0x1af4 ∨
        (f.device ≠ 0x1042 ∧ f.device ≠ 0x1001 ∧ f.device ≠ 0x1041) then
      vbPciFind (dev + 1) functions
    else some (dev, f)

/-- What `vb_init_pci` does with the device that it has found. -/
def vbPciStart (f : VbFunction) : Option VbDev :=
  if f.caps = false then none
  else if f.capacity < 16 then none
  else if f.resets = false then none
  else if f.featuresOk = false then none
  else if (if f.queueMax = 0 then f.queueWritten else f.queueMax) < 4 then none
  else
    some ⟨true, true, false, f.flushFeature, (vbWindow f.capacity).2, f.capacity,
      (vbWindow f.capacity).1, vbDataCapacity 2⟩

/-- `vb_init_pci`. -/
def vbInitPci (m : VbMachine) : Option (VbAt × VbDev) :=
  if m.ecam = false then none
  else
    match vbPciFind 0 m.functions with
    | none => none
    | some (dev, f) => (vbPciStart f).map (.pci dev, ·)

/-- The transport that `virtio_blk_init` sets up. -/
def vbSetUp (m : VbMachine) : Option (VbAt × VbDev) :=
  match vbBest 0 none (2 ^ 64 - 1) m.slots with
  | some (slot, s) => (vbInitMmio m.dma s).map (.mmio slot, ·)
  | none => vbInitPci m

/-! ## The probe -/

/-- The disk after a request that was carried out. -/
def VbReq.carryOut (disk : ℕ → Sector) : VbReq → ℕ → Sector
  | .write lba count src => layRun disk lba (sectorOf src) count
  | _ => disk

/-- A call of one request, and what the device makes of it. -/
def vbIssue (d : VbDev) (c : VbCall) (outcome : Outcome) (disk : ℕ → Sector) :
    Bool × (ℕ → Sector) :=
  match c.plan d 0 with
  | .done ok => (ok, disk)
  | .send req => (outcome = .done, if outcome = .lost then disk else req.carryOut disk)

/-- The bytes of the probe. -/
def probeBytes (i : ℕ) : UInt8 := if i = 0 then 0xC3 else if i = 1 then 0x3C else 0

/-- The sector of the probe. -/
def probeSector : Sector := fun i => probeBytes i

/-- `virtio_blk_probe_rw`, with what the device makes of its write and of its read. -/
def virtioBlkProbeRw (d : VbDev) (write read : Outcome) (disk : ℕ → Sector) :
    Bool × (ℕ → Sector) :=
  match vbIssue d (.write probeBytes 15 1) write disk with
  | (false, disk) => (false, disk)
  | (true, disk) =>
    match vbIssue d (.read 15 1) read disk with
    | (false, disk) => (false, disk)
    | (true, disk) =>
      (decide (disk (d.lbaBase + 15) 0 = 0xC3 ∧ disk (d.lbaBase + 15) 1 = 0x3C), disk)

/-- What `virtio_blk_init` returns, the transport that it has set up, and the disks. -/
structure VbBringUp where
  ok : Bool
  dev : Option (VbAt × VbDev)
  disks : VbAt → ℕ → Sector

/-- `virtio_blk_init`. -/
def virtioBlkInit (m : VbMachine) (write read : Outcome) (disks : VbAt → ℕ → Sector) :
    VbBringUp :=
  match vbSetUp m with
  | none => ⟨false, none, disks⟩
  | some (place, d) =>
    match virtioBlkProbeRw d write read (disks place) with
    | (ok, disk) => ⟨ok, some (place, { d with ready := ok }), Function.update disks place disk⟩

/-! ## What the set-up leaves -/

variable {m : VbMachine} {d : VbDev} {place : VbAt}

/-- The window of a device that was set up: by the size of the disk on PCI, and its start elsewhere. -/
structure VbDev.Placed (d : VbDev) : Prop where
  up : d.up = true
  room : 16 ≤ d.capacity ∧ 512 ≤ d.dataCapacity
  size : 16 ≤ d.fullCapacity
  window : (d.lbaBase, d.capacity) =
    if d.pci then vbWindow d.fullCapacity else (0, min vbRsSects d.fullCapacity)

theorem le_vbDataCapacity (version : ℕ) : 512 ≤ vbDataCapacity version := by
  unfold vbDataCapacity
  split <;> simp

/-- The window of a PCI disk has at least 16 sectors if the disk has. -/
theorem le_vbWindow {fullCap : ℕ} (h : 16 ≤ fullCap) : 16 ≤ (vbWindow fullCap).2 := by
  unfold vbWindow vbRsSects
  split_ifs <;> dsimp only <;> omega

/-- **The window lies on the disk.** -/
theorem vbWindow_le (fullCap : ℕ) : (vbWindow fullCap).1 + (vbWindow fullCap).2 ≤ fullCap := by
  unfold vbWindow vbRsSects vbRsLbaBase zealGptBackupSects zealOldDiskSects Install.zealDiskSects
  split_ifs with hbig hstd hgpt
  · dsimp only
    omega
  · dsimp only
    omega
  · dsimp only
    omega
  · simp

/-- The window of a full-size disk ends where the source bank begins. -/
theorem vbWindow_full : (vbWindow Install.zealDiskSects).1 + (vbWindow Install.zealDiskSects).2 =
    zealSrcLbaBase := by
  decide

/-- **The window of a larger PCI disk** keeps away from the last 33 sectors, unless the disk has no
room for both. -/
theorem vbWindow_backup_iff {fullCap : ℕ} (h : vbRsSects < fullCap) :
    (vbWindow fullCap).1 + (vbWindow fullCap).2 ≤ fullCap - 33 ↔ 162 < fullCap := by
  unfold vbRsSects at h
  unfold vbWindow vbRsSects vbRsLbaBase zealGptBackupSects zealOldDiskSects Install.zealDiskSects
  rw [if_pos h]
  split_ifs with hstd hgpt
  · dsimp only
    omega
  · dsimp only
    omega
  · dsimp only
    omega

theorem vbInitMmio_placed {dma : ℕ} {s : VbSlot} (h : vbInitMmio dma s = some d) : d.Placed := by
  unfold vbInitMmio at h
  split_ifs at h with hqueue hfeatures hdma hsize
  all_goals
    obtain rfl := Option.some.inj h
    refine ⟨rfl, ⟨?_, le_vbDataCapacity _⟩, ?_, ?_⟩
    · dsimp only
      unfold vbRsSects at *
      omega
    · dsimp only
      omega
    · dsimp only
      rw [if_neg Bool.false_ne_true]
      congr 1
      unfold vbRsSects at *
      omega

theorem vbPciStart_placed {f : VbFunction} (h : vbPciStart f = some d) : d.Placed := by
  unfold vbPciStart at h
  split_ifs at h with hcaps hsize
  all_goals
    obtain rfl := Option.some.inj h
    refine ⟨rfl, ⟨le_vbWindow (by omega), le_vbDataCapacity 2⟩, ?_, ?_⟩
    · dsimp only
      omega
    · dsimp only
      rw [if_pos rfl]

/-- **Whatever transport is set up**, the window is where it is for the size of the disk. -/
theorem vbSetUp_placed (h : vbSetUp m = some (place, d)) : d.Placed := by
  unfold vbSetUp at h
  split at h
  · rename_i slot s hbest
    obtain ⟨d', hinit, heq⟩ := Option.map_eq_some_iff.mp h
    obtain ⟨_, rfl⟩ := Prod.mk.inj heq
    exact vbInitMmio_placed hinit
  · unfold vbInitPci at h
    split_ifs at h
    split at h
    · exact absurd h (by simp)
    · rename_i dev f hfind
      obtain ⟨d', hstart, heq⟩ := Option.map_eq_some_iff.mp h
      obtain ⟨_, rfl⟩ := Prod.mk.inj heq
      exact vbPciStart_placed hstart

/-! ## What the probe leaves -/

/-- A call for sector 15 of the window is one request for it. -/
theorem plan_fifteen (h : d.Placed) (src : Option (ℕ → UInt8)) :
    batchPlan d 15 1 src 0 = .send (.rw (d.lbaBase + 15) 1 (src.map fun p x => p (0 * 512 + x))) := by
  obtain ⟨hcap, hdata⟩ := h.room
  have hbatch : ¬d.dataCapacity / 512 = 0 := by omega
  unfold batchPlan
  rw [if_pos Nat.zero_lt_one]
  dsimp only
  rw [if_neg hbatch, if_neg (by omega)]
  unfold rwRequest
  dsimp only
  rw [if_neg (by simp [h.up]; omega), if_neg (by omega), if_neg (by omega)]
  rfl

/-- What the write of the probe leaves. -/
def probed (d : VbDev) (write : Outcome) (disk : ℕ → Sector) : ℕ → Sector :=
  if write = .lost then disk else Function.update disk (d.lbaBase + 15) probeSector

theorem issue_write (h : d.Placed) (write : Outcome) (disk : ℕ → Sector) :
    vbIssue d (.write probeBytes 15 1) write disk = (decide (write = .done), probed d write disk) := by
  unfold vbIssue VbCall.plan
  dsimp only
  rw [plan_fifteen h]
  dsimp only [VbReq.rw, Option.map_some, VbReq.carryOut, probed]
  congr 2
  rw [layRun_succ, layRun_zero]
  congr 1
  funext i
  simp [sectorOf, probeSector]

theorem issue_read (h : d.Placed) (read : Outcome) (disk : ℕ → Sector) :
    vbIssue d (.read 15 1) read disk = (decide (read = .done), disk) := by
  unfold vbIssue VbCall.plan
  dsimp only
  rw [plan_fifteen h]
  dsimp only [VbReq.rw, Option.map_none, VbReq.carryOut]
  rw [ite_self]

/-- **The probe leaves its bytes in sector 15 of the window**, if the device carries the write out. -/
theorem virtioBlkProbeRw_disk (h : d.Placed) (write read : Outcome) (disk : ℕ → Sector) :
    (virtioBlkProbeRw d write read disk).2 = probed d write disk := by
  unfold virtioBlkProbeRw
  rw [issue_write h]
  by_cases hwrite : write = .done
  · rw [decide_eq_true hwrite]
    dsimp only
    rw [issue_read h]
    cases decide (read = .done) <;> rfl
  · rw [decide_eq_false hwrite]

/-- **What a bring-up leaves on the disks.** -/
theorem virtioBlkInit_disks (write read : Outcome) (disks : VbAt → ℕ → Sector) :
    (virtioBlkInit m write read disks).disks =
      match vbSetUp m with
      | none => disks
      | some (place, d) => Function.update disks place (probed d write (disks place)) := by
  unfold virtioBlkInit
  rcases hset : vbSetUp m with _ | ⟨place, d⟩
  · rfl
  · have hdisk := virtioBlkProbeRw_disk (vbSetUp_placed hset) write read (disks place)
    dsimp only
    generalize virtioBlkProbeRw d write read (disks place) = probe at hdisk ⊢
    obtain ⟨ok, disk⟩ := probe
    dsimp only at hdisk ⊢
    rw [hdisk]

end ZealBringup.Blk
