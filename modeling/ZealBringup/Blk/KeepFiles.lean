import ZealBringup.Blk.BringUp
import ZealBringup.Blk.Isolation
import ZealBringup.RedSea.Faults

/-!
# What a bring-up keeps

The sectors outside of the window, the partitions beside it, and the files of the RedSea volume in it.

* `FilesKept`, `Spared` — every file reads as before; no file has anything in sector 15 that the probe
  would change.
* `files_kept_iff` — the one is the other.
* `virtioBlkInit_keeps_iff` — a bring-up keeps what it should exactly when the disk is not too small
  for its backup and the files are spared.
* `file_at_fifteen` — a full-size disk that loses a file.
-/

set_option maxRecDepth 10000

namespace ZealBringup.Blk

open CrashDisk RedSea Store

/-! ## What it is for -/

/-- The window as the device of `rs_load_file`. -/
def windowDev (d : VbDev) (disk : ℕ → Sector) : RedSea.Dev :=
  ⟨d.capacity, fun a => disk (d.lbaBase + a), fun _ => false, 0⟩

/-- Every file that can be read from the one device reads the same from the other. -/
def FilesKept (dev dev' : RedSea.Dev) : Prop :=
  ∀ (name : CStr) (cap : ℕ) (bytes : List UInt8), rsLoadFile dev name cap = .ok bytes →
    rsLoadFile dev' name cap = .ok bytes

/-- A sector of the window. -/
def VbDev.InWindow (d : VbDev) (a : ℕ) : Prop := d.lbaBase ≤ a ∧ a < d.lbaBase + d.capacity

/-- What a bring-up should keep. -/
structure InitKeeps (m : VbMachine) (write read : Outcome) (disks : VbAt → ℕ → Sector) : Prop where
  frame : ∀ place a,
    (∀ d, (virtioBlkInit m write read disks).dev = some (place, d) → ¬d.InWindow a) →
      (virtioBlkInit m write read disks).disks place a = disks place a
  banks : ∀ place d, (virtioBlkInit m write read disks).dev = some (place, d) →
    d.fullCapacity = Install.zealDiskSects → ∀ a, d.InWindow a →
      ¬(zealSrcLbaBase ≤ a ∧ a < zealSrcLbaBase + zealSrcSects) ∧
        ¬(zealSrcShadowLba ≤ a ∧ a < zealSrcShadowLba + zealSrcShadowSects)
  backup : ∀ place d, (virtioBlkInit m write read disks).dev = some (place, d) → d.pci = true →
    vbRsSects < d.fullCapacity → ∀ a, d.InWindow a →
      ¬(d.fullCapacity - 33 ≤ a ∧ a < d.fullCapacity)
  files : ∀ place d root sects, (virtioBlkInit m write read disks).dev = some (place, d) →
    Volume d.capacity (windowDev d (disks place)).disk root sects →
      FilesKept (windowDev d (disks place))
        (windowDev d ((virtioBlkInit m write read disks).disks place))

/-- No file has anything in sector 15 but the bytes of the probe, nor is it found there. -/
def Spared (disk : Disk Sector) (root : ℕ) : Prop :=
  ∀ i, slotLive (disk root) i = true → slotLen (disk root) i ≠ 0 → root ≠ 15 ∧
    ∀ k < slotLen (disk root) i, slotBlk (disk root) i + k / 512 = 15 →
      Sector.get (disk 15) (k % 512) = Sector.get probeSector (k % 512)

/-- A PCI disk has room for the window and its backup, or is all window; and the files of the volume in
the window are spared, if the device carries the write of the probe out. -/
def InitSpares (m : VbMachine) (write : Outcome) (disks : VbAt → ℕ → Sector) : Prop :=
  ∀ place d, vbSetUp m = some (place, d) →
    (d.pci = true → d.fullCapacity ≤ vbRsSects ∨ 162 < d.fullCapacity) ∧
      (write ≠ .lost → ∀ root sects,
        Volume d.capacity (windowDev d (disks place)).disk root sects →
          Spared (windowDev d (disks place)).disk root)

/-! ## Files -/

section Files

variable {dev : RedSea.Dev} {root sects : ℕ}

/-- A file that is there is read. -/
theorem load_live (h : Volume dev.capacity dev.disk root sects) {i : Fin 8}
    (hlive : slotLive (dev.disk root) i = true) (hlen : slotLen (dev.disk root) i ≠ 0) :
    rsLoadFile dev ⟨slotName (dev.disk root) i, nul_not_mem_cString _⟩
        (slotLen (dev.disk root) i + 1) =
      .ok (fileBytes dev.disk (slotBlk (dev.disk root) i) (slotLen (dev.disk root) i)) := by
  obtain ⟨hblk, hext⟩ := h.extents i hlive
  have hrun := h.run_le hlive
  have hfits := h.fits
  have hfind : rsFindSlot (dev.disk root) (slotName (dev.disk root) i) = some i :=
    (rsFindSlot_some_iff h.safe).mpr ⟨hlive, rfl⟩
  have hclusters := clusters_eq (h.lengths i hlive)
  unfold rsLoadFile
  rw [if_neg (by omega), h.books.readRoot]
  dsimp only
  rw [hfind]
  dsimp only
  rw [if_neg (by rw [hclusters]; omega)]
  exact rsLoadBlocks_eq rfl (by omega)

/-- A directory of the bytes of the probe is empty. -/
theorem probeSector_dead (i : Fin 8) : slotLive probeSector i = false := by
  revert i
  decide

/-- A volume whose directory was probed has no files. -/
theorem load_probed {dev' : RedSea.Dev} (h : Volume dev.capacity dev.disk 15 sects)
    (hcap : dev'.capacity = dev.capacity) (h0 : dev'.disk 0 = dev.disk 0)
    (hprobe : dev'.disk 15 = probeSector) (name : CStr) (cap : ℕ) (bytes : List UInt8) :
    rsLoadFile dev' name cap ≠ .ok bytes := by
  have hdead : ∀ i, slotLive (dev'.disk 15) i ≠ true := by
    intro i
    rw [hprobe, probeSector_dead i]
    exact Bool.false_ne_true
  have hbooks : Books dev'.capacity dev'.disk 15 sects := by
    refine ⟨?_, h.size, ?_, h.rootApart, ?_, ?_, ?_⟩
    · rw [h0]
      exact h.boot
    · rw [hcap]
      exact h.fits
    all_goals
      intro i hlive
      exact absurd hlive (hdead i)
  have hfind : rsFindSlot (dev'.disk 15) name.bytes = none :=
    rsFindSlot_none_iff.mpr fun i hlive => absurd hlive (hdead i)
  unfold rsLoadFile
  rw [hbooks.readRoot]
  dsimp only
  rw [hfind]
  split <;> simp

/-- **Every file reads as before exactly when the files are spared.** -/
theorem files_kept_iff {dev' : RedSea.Dev} (h : Volume dev.capacity dev.disk root sects)
    (hcap : dev'.capacity = dev.capacity)
    (hdisk : dev'.disk = Function.update dev.disk 15 probeSector) :
    FilesKept dev dev' ↔ Spared dev.disk root := by
  have h15 : dev'.disk 15 = probeSector := by
    rw [hdisk, Function.update_self]
  have hother : ∀ a, a ≠ 15 → dev'.disk a = dev.disk a := by
    intro a ha
    rw [hdisk, Function.update_of_ne ha]
  by_cases hroot : root = 15
  · subst hroot
    constructor
    · intro hkept i hlive hlen
      exact absurd (hkept _ _ _ (load_live h hlive hlen))
        (load_probed h hcap (hother 0 (by decide)) h15 _ _ _)
    · intro hspared name cap bytes hload
      -- without a file nothing was read before
      exfalso
      rw [h.load, loadOf] at hload
      split_ifs at hload
      split at hload
      · cases hload
      · rename_i f hfile
        obtain ⟨i, _, hi⟩ := List.exists_of_findSome?_eq_some hfile
        obtain ⟨hi, _⟩ := Option.filter_eq_some_iff.mp hi
        unfold fileOf at hi
        split_ifs at hi hload with hlive hempty
        obtain rfl := Option.some.inj hi
        rw [length_fileBytes, not_or] at hempty
        exact (hspared i hlive hempty.1).1 rfl
  · have h' : Volume dev'.capacity dev'.disk root sects := by
      rw [hcap]
      exact h.congr (hother 0 (by decide)) (hother 1 (by decide)) (hother root hroot)
    have hdir := hother root hroot
    constructor
    · intro hkept i hlive hlen
      refine ⟨hroot, ?_⟩
      intro k hk h15k
      have hafter := hkept _ _ _ (load_live h hlive hlen)
      have hlive' : slotLive (dev'.disk root) i = true := by
        rw [hdir]
        exact hlive
      have hlen' : slotLen (dev'.disk root) i ≠ 0 := by
        rw [hdir]
        exact hlen
      have hload := load_live h' hlive' hlen'
      simp only [hdir] at hload
      rw [hload] at hafter
      have hbytes := congrArg (fun bs => bs[k]?) (Except.ok.inj hafter)
      simp only [fileBytes, List.getElem?_map, List.getElem?_range hk, Option.map_some, h15k, h15]
        at hbytes
      exact (Option.some.inj hbytes).symm
    · intro hspared name cap bytes hload
      rw [load_congr h h' ?_]
      · exact hload
      intro i
      unfold fileOf
      rw [hdir]
      split_ifs with hlive
      · congr 2
        unfold fileBytes
        refine List.map_congr_left ?_
        intro k hk
        rw [List.mem_range] at hk
        by_cases hat : slotBlk (dev.disk root) i + k / 512 = 15
        · rw [hat, h15]
          exact ((hspared i hlive (by omega)).2 k hk hat).symm
        · rw [hother _ hat]
      · rfl

end Files

/-! ## The bring-up -/

variable {m : VbMachine} {d : VbDev} {place : VbAt} {write read : Outcome} {disks : VbAt → ℕ → Sector}

/-- The device that a bring-up leaves is the one that was set up. -/
theorem virtioBlkInit_dev (hset : vbSetUp m = some (place, d)) :
    (virtioBlkInit m write read disks).dev =
      some (place, { d with ready := (virtioBlkInit m write read disks).ok }) := by
  unfold virtioBlkInit
  rw [hset]

theorem virtioBlkInit_none (hset : vbSetUp m = none) :
    (virtioBlkInit m write read disks).dev = none := by
  unfold virtioBlkInit
  rw [hset]

/-- What the probe leaves of the window. -/
theorem windowDev_probed (d : VbDev) (disk : ℕ → Sector) (hwrite : write ≠ .lost) :
    (windowDev d (probed d write disk)).disk =
      Function.update (windowDev d disk).disk 15 probeSector := by
  funext a
  unfold windowDev probed
  dsimp only
  rw [if_neg hwrite]
  by_cases ha : a = 15
  · rw [ha, Function.update_self, Function.update_self]
  · rw [Function.update_of_ne ha, Function.update_of_ne (by omega)]

/-- **Sectors outside of the window are as before.** -/
theorem virtioBlkInit_frame (place' : VbAt) (a : ℕ)
    (hout : ∀ d, (virtioBlkInit m write read disks).dev = some (place', d) → ¬d.InWindow a) :
    (virtioBlkInit m write read disks).disks place' a = disks place' a := by
  rw [virtioBlkInit_disks]
  rcases hset : vbSetUp m with _ | ⟨place, d⟩
  · rfl
  · dsimp only
    by_cases hplace : place' = place
    · subst hplace
      have hroom := (vbSetUp_placed hset).room
      have hne : a ≠ d.lbaBase + 15 := by
        intro ha
        apply hout _ (virtioBlkInit_dev hset)
        constructor
        · show d.lbaBase ≤ a
          omega
        · show a < d.lbaBase + d.capacity
          omega
      rw [Function.update_self]
      unfold probed
      split_ifs
      · rfl
      · exact Function.update_of_ne hne _ _
    · rw [Function.update_of_ne hplace]

/-- **The window of a full-size disk** has no sector of the source banks. -/
theorem placed_banks (h : d.Placed) (hfull : d.fullCapacity = Install.zealDiskSects) {a : ℕ}
    (ha : d.InWindow a) :
    ¬(zealSrcLbaBase ≤ a ∧ a < zealSrcLbaBase + zealSrcSects) ∧
      ¬(zealSrcShadowLba ≤ a ∧ a < zealSrcShadowLba + zealSrcShadowSects) := by
  have hend : d.lbaBase + d.capacity ≤ zealSrcLbaBase := by
    have hwindow := h.window
    rw [hfull] at hwindow
    split_ifs at hwindow with hpci
    · have hend := vbWindow_full
      rw [← hwindow] at hend
      exact hend.le
    · obtain ⟨hbase, hcap⟩ := Prod.mk.inj hwindow
      rw [hbase, hcap]
      decide
  have hlt := ha.2
  have hshadow : zealSrcLbaBase ≤ zealSrcShadowLba := by decide
  omega

/-- **The window of a larger PCI disk** has no sector of the backup exactly if it has room for both. -/
theorem placed_backup_iff (h : d.Placed) (hpci : d.pci = true) (hlarge : vbRsSects < d.fullCapacity) :
    (∀ a, d.InWindow a → ¬(d.fullCapacity - 33 ≤ a ∧ a < d.fullCapacity)) ↔
      162 < d.fullCapacity := by
  have hwindow := h.window
  rw [if_pos hpci] at hwindow
  have hon := vbWindow_le d.fullCapacity
  rw [← vbWindow_backup_iff hlarge]
  rw [← hwindow] at hon ⊢
  dsimp only at hon ⊢
  have hroom := h.room
  constructor
  · intro hapart
    by_contra hover
    apply hapart (d.lbaBase + d.capacity - 1)
    · exact ⟨by omega, by omega⟩
    · exact ⟨by omega, by omega⟩
  · intro hend a ha hbackup
    have hlt := ha.2
    omega

/-- A bring-up that keeps what it should has room for the backup, and spares the files. -/
theorem InitKeeps.spares (hkeeps : InitKeeps m write read disks) : InitSpares m write disks := by
  intro place d hset
  have hplaced := vbSetUp_placed hset
  have hdev := @virtioBlkInit_dev _ _ _ write read disks hset
  refine ⟨?_, ?_⟩
  · intro hpci
    by_cases hlarge : vbRsSects < d.fullCapacity
    · have hapart := hkeeps.backup place _ hdev hpci hlarge
      exact Or.inr ((placed_backup_iff hplaced hpci hlarge).mp hapart)
    · exact Or.inl (Nat.le_of_not_lt hlarge)
  · intro hwrite root sects hvol
    have hkept := hkeeps.files place _ root sects hdev hvol
    rw [virtioBlkInit_disks, hset] at hkept
    dsimp only at hkept
    rw [Function.update_self] at hkept
    exact (@files_kept_iff (windowDev d (disks place)) root sects
      (windowDev d (probed d write (disks place))) hvol rfl (windowDev_probed d _ hwrite)).mp hkept

/-- The device of a bring-up was set up. -/
theorem virtioBlkInit_dev_some {d' : VbDev}
    (h : (virtioBlkInit m write read disks).dev = some (place, d')) :
    ∃ d, vbSetUp m = some (place, d) ∧
      d' = { d with ready := (virtioBlkInit m write read disks).ok } := by
  rcases hset : vbSetUp m with _ | ⟨place₀, d⟩
  · rw [virtioBlkInit_none hset] at h
    cases h
  · rw [virtioBlkInit_dev hset] at h
    obtain ⟨rfl, rfl⟩ := Prod.mk.inj (Option.some.inj h)
    exact ⟨d, rfl, rfl⟩

theorem InitSpares.keeps (hspares : InitSpares m write disks) : InitKeeps m write read disks where
  frame := virtioBlkInit_frame
  banks := by
    intro place d' hdev hfull a ha
    obtain ⟨d, hset, rfl⟩ := virtioBlkInit_dev_some hdev
    exact placed_banks (vbSetUp_placed hset) hfull ha
  backup := by
    intro place d' hdev hpci hlarge a ha
    obtain ⟨d, hset, rfl⟩ := virtioBlkInit_dev_some hdev
    have hroom := ((hspares _ _ hset).1 hpci).resolve_left (Nat.not_le_of_lt hlarge)
    exact (placed_backup_iff (vbSetUp_placed hset) hpci hlarge).mpr hroom a ha
  files := by
    intro place d' root sects hdev hvol
    obtain ⟨d, hset, rfl⟩ := virtioBlkInit_dev_some hdev
    rw [virtioBlkInit_disks, hset]
    dsimp only
    rw [Function.update_self]
    by_cases hwrite : write = .lost
    · unfold probed
      rw [if_pos hwrite]
      exact fun _ _ _ hload => hload
    · have hspared := (hspares _ _ hset).2 hwrite root sects hvol
      exact (@files_kept_iff (windowDev d (disks place)) root sects
        (windowDev d (probed d write (disks place))) hvol rfl
        (windowDev_probed d _ hwrite)).mpr hspared

/-- **A bring-up keeps what it should exactly when the disk has room for its backup and the files are
spared**, whatever the transport and whatever becomes of the two requests. -/
theorem virtioBlkInit_keeps_iff (m : VbMachine) (write read : Outcome)
    (disks : VbAt → ℕ → Sector) :
    InitKeeps m write read disks ↔ InitSpares m write disks :=
  ⟨InitKeeps.spares, InitSpares.keeps⟩

/-! ## A file that is lost -/

/-- A machine whose only disk is the full-size one on PCI. -/
def fullMachine : VbMachine :=
  ⟨0, [], true, [⟨0x1af4, 0x1042, true, 262144, true, true, true, 8, 8⟩]⟩

/-- A fresh volume of 16 clusters after a put. -/
def putVolume (src : List UInt8) : RedSea.Dev :=
  (rsPutFile nameA src (rsFmtHost 16 7 soundDev).2).2

/-- Its disk, with the volume in the window. -/
def putDisks (src : List UInt8) : VbAt → ℕ → Sector := fun _ a =>
  (putVolume src).disk (a - vbRsLbaBase)

theorem putVolume_volume {src : List UInt8}
    (hcode : (rsPutFile nameA src (rsFmtHost 16 7 soundDev).2).1 = 0) :
    Volume (putVolume src).capacity (putVolume src).disk 2 16 := by
  have hfresh := @rsFmtHost_catalog soundDev _ 16 7 (fun _ => rfl) rfl
  have hput := (hfresh.step (.put nameA src) fun hnil => absurd hnil (List.cons_ne_nil _ _)).1 hcode
  exact hput.volume

/-- A file in all of the clusters that are free. -/
def fullFile : List UInt8 := List.replicate 6656 1

/-- **A full-size disk whose file reaches cluster 15** loses it: the probe overwrites the last of its
clusters. -/
theorem file_at_fifteen : ¬InitKeeps fullMachine .done .done (putDisks fullFile) := by
  intro hkeeps
  have hset : vbSetUp fullMachine = some (.pci 0, ⟨true, true, false, true, 128, 262144, 130911,
      vbDataCapacity 2⟩) := by
    rfl
  have hcap : (putVolume fullFile).capacity = 128 := by decide +kernel
  have hvol := @putVolume_volume fullFile (by decide +kernel)
  have hdisk : (windowDev ⟨true, true, false, true, 128, 262144, 130911, vbDataCapacity 2⟩
      (putDisks fullFile (.pci 0))).disk = (putVolume fullFile).disk := by
    funext a
    unfold windowDev putDisks vbRsLbaBase
    dsimp only
    rw [Nat.add_sub_cancel_left]
  rw [hcap, ← hdisk] at hvol
  have hspared := (hkeeps.spares _ _ hset).2 (by decide) 2 16 hvol
  rw [hdisk] at hspared
  have hlen : slotLen ((putVolume fullFile).disk 2) 0 = 6656 := by decide +kernel
  have hblk : slotBlk ((putVolume fullFile).disk 2) 0 = 3 := by decide +kernel
  have hlast := (hspared 0 (by decide +kernel) (by rw [hlen]; decide)).2 6144
    (by rw [hlen]; decide) (by rw [hblk])
  exact absurd hlast (by decide +kernel)

end ZealBringup.Blk
