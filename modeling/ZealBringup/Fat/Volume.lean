import Mathlib.Algebra.Group.Nat.Defs
import Mathlib.Data.Nat.Notation
import Mathlib.Tactic.Common

/-!
# FAT32 volumes

`pi4_fat32_bpb` and `pi4_fat32_cluster_lba` of `pi4_fat32.h`.

* `Sector`, `Device` — 512 bytes, and what the read callback answers for every LBA.
* `Volume` — the geometry that is taken from a boot sector.
* `VolumeOk` — what holds of every accepted geometry.
* `pi4Fat32Bpb_ok` — the boot sectors that are accepted give such volumes, without a wrap.
-/

namespace ZealBringup.Fat

/-- A sector of 512 bytes. -/
structure Sector where
  bytes : List UInt8
  size : bytes.length = 512

/-- What the read callback answers, `none` for a failure. -/
abbrev Device := ℕ → Option Sector

/-- The byte at an index. -/
def byteAt (p : List UInt8) (i : ℕ) : ℕ := (p.getD i 0).toNat

/-- `pi4_fat32_le16`. -/
def pi4Fat32Le16 (p : List UInt8) : ℕ := byteAt p 0 ||| byteAt p 1 <<< 8

/-- `pi4_fat32_le32`. -/
def pi4Fat32Le32 (p : List UInt8) : ℕ := pi4Fat32Le16 p ||| pi4Fat32Le16 (p.drop 2) <<< 16

/-- `pi4_fat32_signature`. -/
def pi4Fat32Signature (p : List UInt8) : Prop := byteAt p 510 = 0x55 ∧ byteAt p 511 = 0xaa

instance (p : List UInt8) : Decidable (pi4Fat32Signature p) := inferInstanceAs (Decidable (_ ∧ _))

/-- `struct pi4_fat32_volume`. -/
structure Volume where
  first : ℕ := 0
  sectors : ℕ := 0
  fatFirst : ℕ := 0
  fatSectors : ℕ := 0
  dataFirst : ℕ := 0
  sectorsPerCluster : ℕ := 0
  clusters : ℕ := 0
  rootCluster : ℕ := 0
  activeFat : ℕ := 0
  deriving DecidableEq

/-! ## The fields of a boot sector -/

/-- The locals of `pi4_fat32_bpb` that are read from the boot sector. -/
structure Bpb where
  spc : ℕ
  reserved : ℕ
  fats : ℕ
  total : ℕ
  fat : ℕ
  flags : ℕ
  root : ℕ

def readBpb (b : List UInt8) : Bpb where
  spc := byteAt b 13
  reserved := pi4Fat32Le16 (b.drop 14)
  fats := byteAt b 16
  total := pi4Fat32Le32 (b.drop 32)
  fat := pi4Fat32Le32 (b.drop 36)
  flags := pi4Fat32Le16 (b.drop 40)
  root := pi4Fat32Le32 (b.drop 44)

def Bpb.active (p : Bpb) : ℕ := if p.flags &&& 0x80 ≠ 0 then p.flags &&& 15 else 0

/-- The sectors before the data. -/
def Bpb.overhead (p : Bpb) : ℕ := p.reserved + p.fats * p.fat

def Bpb.clusters (p : Bpb) : ℕ := (p.total - p.overhead) / p.spc

/-- The first refusal of `pi4_fat32_bpb`. -/
def BadLayout (b : List UInt8) (p : Bpb) (first partitionSectors lastLba : ℕ) : Prop :=
  ¬pi4Fat32Signature b ∨
  ¬(byteAt b 0 = 0xeb ∧ byteAt b 2 = 0x90 ∨ byteAt b 0 = 0xe9) ∨
  pi4Fat32Le16 (b.drop 11) ≠ 512 ∨ p.spc = 0 ∨ p.spc > 128 ∨ p.spc &&& (p.spc - 1) ≠ 0 ∨
  p.reserved = 0 ∨ (p.fats ≠ 1 ∧ p.fats ≠ 2) ∨ p.fat = 0 ∨ p.total = 0 ∨
  pi4Fat32Le16 (b.drop 17) ≠ 0 ∨ pi4Fat32Le16 (b.drop 19) ≠ 0 ∨
  pi4Fat32Le16 (b.drop 22) ≠ 0 ∨ pi4Fat32Le16 (b.drop 42) ≠ 0 ∨
  p.flags &&& 0xff70 ≠ 0 ∨ p.active ≥ p.fats ∨ p.overhead ≥ p.total ∨
  p.total > partitionSectors ∨ first + p.total > lastLba + 1

/-- The second one, by the number of clusters. -/
def BadClusters (p : Bpb) : Prop :=
  p.clusters < 65525 ∨ p.clusters + 1 ≥ 0x0ffffff0 ∨ p.clusters + 2 > p.fat * 128 ∨
  p.root < 2 ∨ p.root > p.clusters + 1

instance (b : List UInt8) (p : Bpb) (first partitionSectors lastLba : ℕ) :
    Decidable (BadLayout b p first partitionSectors lastLba) :=
  inferInstanceAs (Decidable (_ ∨ _))

instance (p : Bpb) : Decidable (BadClusters p) := inferInstanceAs (Decidable (_ ∨ _))

/-- `pi4_fat32_bpb`, with its sums of 32 bits. -/
def pi4Fat32Bpb (b : Sector) (first partitionSectors lastLba : ℕ) : Option Volume :=
  let p := readBpb b.bytes
  if BadLayout b.bytes p first partitionSectors lastLba then none
  else if BadClusters p then none
  else some
    { first := first
      sectors := p.total
      fatFirst := (first + p.reserved + p.active * p.fat) % 2 ^ 32
      fatSectors := p.fat
      dataFirst := (first + p.overhead) % 2 ^ 32
      sectorsPerCluster := p.spc
      clusters := p.clusters
      rootCluster := p.root
      activeFat := p.active }

/-- `pi4_fat32_cluster_lba`, a sum of 64 bits. -/
def pi4Fat32ClusterLba (v : Volume) (cluster : ℕ) : Option ℕ :=
  if cluster < 2 ∨ cluster > v.clusters + 1 then none
  else
    let start := v.dataFirst + (cluster - 2) * v.sectorsPerCluster
    if start + v.sectorsPerCluster > v.first + v.sectors ∨ start > 2 ^ 32 - 1 then none
    else some start

/-! ## Accepted volumes -/

variable {v : Volume} {b : Sector} {first partitionSectors lastLba cluster : ℕ}

/-- A cluster of the data area. -/
def InRange (v : Volume) (cluster : ℕ) : Prop := 2 ≤ cluster ∧ cluster ≤ v.clusters + 1

instance (v : Volume) (cluster : ℕ) : Decidable (InRange v cluster) :=
  inferInstanceAs (Decidable (_ ∧ _))

/-- The first LBA of a cluster. -/
def clusterStart (v : Volume) (cluster : ℕ) : ℕ :=
  v.dataFirst + (cluster - 2) * v.sectorsPerCluster

/-- An accepted geometry: the FAT and then the data are within the volume, which is on the
device; a FAT has a link for every cluster. -/
structure VolumeOk (v : Volume) (partitionSectors lastLba : ℕ) : Prop where
  fat : v.first < v.fatFirst ∧ v.fatFirst + v.fatSectors ≤ v.dataFirst
  data : v.dataFirst + v.clusters * v.sectorsPerCluster ≤ v.first + v.sectors
  partition : v.sectors ≤ partitionSectors
  device : v.first + v.sectors ≤ lastLba + 1
  cluster : 1 ≤ v.sectorsPerCluster ∧ v.sectorsPerCluster ≤ 128
  links : v.clusters + 1 < 0x0ffffff0 ∧ v.clusters + 2 ≤ v.fatSectors * 128
  root : InRange v v.rootCluster

/-- **What an accepted boot sector gives**: no sum of 32 bits wraps. -/
theorem pi4Fat32Bpb_exact (h : pi4Fat32Bpb b first partitionSectors lastLba = some v)
    (hlast : lastLba < 2 ^ 32) :
    v.first = first ∧ v.sectors = (readBpb b.bytes).total ∧
    v.fatFirst = first + (readBpb b.bytes).reserved +
      (readBpb b.bytes).active * (readBpb b.bytes).fat ∧
    v.dataFirst = first + (readBpb b.bytes).reserved +
      (readBpb b.bytes).fats * (readBpb b.bytes).fat := by
  rw [pi4Fat32Bpb] at h
  generalize readBpb b.bytes = p at h ⊢
  split at h
  · cases h
  next hlayout =>
  split at h
  · cases h
  obtain rfl := Option.some.inj h
  simp only [BadLayout, not_or, Bpb.overhead] at hlayout
  have hactive : p.active * p.fat ≤ p.fats * p.fat := Nat.mul_le_mul_right _ (by omega)
  refine ⟨rfl, rfl, Nat.mod_eq_of_lt (by omega), ?_⟩
  dsimp only
  rw [Bpb.overhead, Nat.mod_eq_of_lt (by omega), Nat.add_assoc]

/-- **An accepted boot sector gives a sound volume.** -/
theorem pi4Fat32Bpb_ok (h : pi4Fat32Bpb b first partitionSectors lastLba = some v)
    (hlast : lastLba < 2 ^ 32) : v.first = first ∧ VolumeOk v partitionSectors lastLba := by
  obtain ⟨hfirst, hsectors, hfat, hdata⟩ := pi4Fat32Bpb_exact h hlast
  rw [pi4Fat32Bpb] at h
  generalize readBpb b.bytes = p at h hsectors hfat hdata
  split at h
  · cases h
  next hlayout =>
  split at h
  · cases h
  next hclusters =>
  simp only [BadLayout, not_or] at hlayout
  simp only [BadClusters, not_or, Bpb.clusters] at hclusters
  have hactive : (p.active + 1) * p.fat ≤ p.fats * p.fat := Nat.mul_le_mul_right _ (by omega)
  have hdiv : (p.total - p.overhead) / p.spc * p.spc ≤ p.total - p.overhead :=
    Nat.div_mul_le_self _ _
  rw [Nat.succ_mul] at hactive
  have hv := Option.some.inj h
  have hspc : v.sectorsPerCluster = p.spc := by rw [← hv]
  have hfatSectors : v.fatSectors = p.fat := by rw [← hv]
  have hcount : v.clusters = (p.total - p.overhead) / p.spc := by rw [← hv]; rfl
  have hroot : v.rootCluster = p.root := by rw [← hv]
  rw [Bpb.overhead] at hlayout hdiv
  refine ⟨hfirst, ⟨?_, ?_, ?_, ?_, ?_, ?_, ?_⟩⟩
  · omega
  · rw [hcount, hspc, Bpb.overhead]
    omega
  · omega
  · omega
  · omega
  · rw [hcount, hfatSectors]
    omega
  · rw [InRange, hroot, hcount]
    omega

/-! ## Clusters -/

/-- The clusters are within the volume. -/
theorem VolumeOk.clusterStart_le (h : VolumeOk v partitionSectors lastLba)
    (hc : InRange v cluster) :
    v.dataFirst ≤ clusterStart v cluster ∧
      clusterStart v cluster + v.sectorsPerCluster ≤ v.first + v.sectors := by
  have hmul : (cluster - 2 + 1) * v.sectorsPerCluster ≤ v.clusters * v.sectorsPerCluster :=
    Nat.mul_le_mul_right _ (by have := hc.1; have := hc.2; omega)
  have hdata := h.data
  rw [Nat.succ_mul] at hmul
  rw [clusterStart]
  omega

/-- `pi4_fat32_cluster_lba` answers for the clusters in range. -/
theorem VolumeOk.clusterLba (h : VolumeOk v partitionSectors lastLba) (hlast : lastLba < 2 ^ 32)
    (cluster : ℕ) :
    pi4Fat32ClusterLba v cluster =
      if InRange v cluster then some (clusterStart v cluster) else none := by
  rw [pi4Fat32ClusterLba]
  by_cases hc : InRange v cluster
  · obtain ⟨-, hstop⟩ := h.clusterStart_le hc
    have hdevice := h.device
    have hspc := h.cluster
    have hin : ¬(cluster < 2 ∨ cluster > v.clusters + 1) := by
      rw [InRange] at hc
      omega
    rw [clusterStart] at hstop
    rw [if_pos hc, if_neg hin, if_neg (by omega), clusterStart]
  · have hout : cluster < 2 ∨ cluster > v.clusters + 1 := by
      rw [InRange] at hc
      omega
    rw [if_neg hc, if_pos hout]

/-- The FAT has a link for every cluster. -/
theorem VolumeOk.fatSector (h : VolumeOk v partitionSectors lastLba) (hc : InRange v cluster) :
    cluster / 128 < v.fatSectors := by
  have hlinks := h.links.2
  have hhigh := hc.2
  omega

end ZealBringup.Fat
