import Mathlib.Data.List.Range
import ZealBringup.Fat.Volume

/-!
# Cluster chains

The check of one cluster, which the root scan and the file read have in common, and the chain that
the FAT describes.

* `visit` — the checks of a cluster, the read of its link and the check of the link.
* `hop`, `Sound` — the clusters of a chain, and those that may be visited.
* `chainSector` — the sectors of a chain, counted from its start.
* `visit_cases` — a visit succeeds exactly at the sound clusters.
-/

namespace ZealBringup.Fat

/-! ## The check of a cluster -/

/-- The link of a cluster in its sector of the FAT. -/
def linkIn (buffer : Sector) (cluster : ℕ) : ℕ :=
  pi4Fat32Le32 (buffer.bytes.drop (cluster % 128 * 4)) &&& 0x0fffffff

/-- A link that is free, reserved, bad or out of range, and not the end of the chain. -/
def BadLink (v : Volume) (next : ℕ) : Prop :=
  next < 0x0ffffff8 ∧ (next < 2 ∨ next ≥ 0x0ffffff0 ∨ next > v.clusters + 1)

/-- The end of the chain. -/
def IsEnd (next : ℕ) : Prop := next ≥ 0x0ffffff8

instance (v : Volume) (next : ℕ) : Decidable (BadLink v next) := inferInstanceAs (Decidable (_ ∧ _))
instance (next : ℕ) : Decidable (IsEnd next) := inferInstanceAs (Decidable (_ ≥ _))

/-- What the checks of a cluster give: no read at all, a read that failed, a bad link, or the
first sector of the cluster and its link. -/
inductive Visit where
  | refused
  | unread (lba : ℕ)
  | badLink (lba : ℕ)
  | ok (lba first next : ℕ)

/-- The start of a turn of the loops over a chain. -/
def visit (dev : Device) (v : Volume) (seen : List ℕ) (cluster : ℕ) : Visit :=
  if cluster ∈ seen then .refused
  else
    match pi4Fat32ClusterLba v cluster with
    | none => .refused
    | some first =>
        if cluster / 128 ≥ v.fatSectors then .refused
        else
          let lba := (v.fatFirst + cluster / 128) % 2 ^ 32
          match dev lba with
          | none => .unread lba
          | some buffer =>
              let next := linkIn buffer cluster
              if BadLink v next then .badLink lba else .ok lba first next

/-! ## The chain -/

/-- The sector of the FAT with the link of a cluster. -/
def fatLba (v : Volume) (cluster : ℕ) : ℕ := v.fatFirst + cluster / 128

/-- The link of a cluster. -/
def fatLink (dev : Device) (v : Volume) (cluster : ℕ) : Option ℕ :=
  (dev (fatLba v cluster)).map fun buffer => linkIn buffer cluster

/-- The cluster behind another one. -/
def follow (dev : Device) (v : Volume) (cluster : ℕ) : Option ℕ :=
  (fatLink dev v cluster).bind fun next => if InRange v next then some next else none

/-- The clusters of a chain. -/
def hop (dev : Device) (v : Volume) (start : ℕ) : ℕ → Option ℕ
  | 0 => some start
  | i + 1 => (hop dev v start i).bind (follow dev v)

/-- A cluster of a chain that may be visited: in range, not met before, with a link that is read
and is sound. -/
def Sound (dev : Device) (v : Volume) (start i : ℕ) : Prop :=
  ∃ c next, hop dev v start i = some c ∧ InRange v c ∧ (∀ j < i, hop dev v start j ≠ some c) ∧
    fatLink dev v c = some next ∧ ¬BadLink v next

/-- The last cluster of a chain. -/
def LastAt (dev : Device) (v : Volume) (start i : ℕ) : Prop :=
  ∃ c next, hop dev v start i = some c ∧ fatLink dev v c = some next ∧ IsEnd next

/-- A sector of a chain. -/
def chainSector (dev : Device) (v : Volume) (start s : ℕ) : Option Sector :=
  (hop dev v start (s / v.sectorsPerCluster)).bind fun c =>
    dev (clusterStart v c + s % v.sectorsPerCluster)

variable {dev : Device} {v : Volume} {start cluster i j k next s : ℕ} {seen : List ℕ}
  {partitionSectors lastLba : ℕ}

/-- Nothing is behind the end of a chain. -/
theorem hop_none_of_le (h : hop dev v start i = none) (hij : i ≤ j) : hop dev v start j = none := by
  induction hij with
  | refl => exact h
  | step _ ih => rw [hop, ih, Option.bind_none]

theorem LastAt.hop_succ (hlast : LastAt dev v start i) (hclusters : v.clusters + 1 < 0x0ffffff0) :
    hop dev v start (i + 1) = none := by
  obtain ⟨c, next, hc, hlink, hend⟩ := hlast
  have hout : ¬InRange v next := by
    rw [IsEnd] at hend
    rw [InRange]
    omega
  rw [hop, hc, Option.bind_some, follow, hlink, Option.bind_some, if_neg hout]

/-- A sound cluster is the last one, or has another one behind it. -/
theorem hop_succ (hc : hop dev v start i = some cluster) (hlink : fatLink dev v cluster = some next)
    (hsound : ¬BadLink v next) (hend : ¬IsEnd next) : hop dev v start (i + 1) = some next := by
  have hin : InRange v next := by
    rw [BadLink] at hsound
    rw [IsEnd] at hend
    rw [InRange]
    omega
  rw [hop, hc, Option.bind_some, follow, hlink, Option.bind_some, if_pos hin]

theorem chainSector_eq (dev : Device) (hc : hop dev v start i = some cluster)
    (hk : k < v.sectorsPerCluster) :
    chainSector dev v start (i * v.sectorsPerCluster + k) = dev (clusterStart v cluster + k) := by
  have hpos : 0 < v.sectorsPerCluster := Nat.zero_lt_of_lt hk
  rw [chainSector, Nat.mul_comm, Nat.mul_add_div hpos, Nat.div_eq_of_lt hk, Nat.add_zero, hc,
    Option.bind_some, Nat.mul_add_mod, Nat.mod_eq_of_lt hk]

/-! ## Visits -/

/-- The clusters that were visited before. -/
def Seen (dev : Device) (v : Volume) (start i : ℕ) (seen : List ℕ) : Prop :=
  seen.map some = (List.range i).map (hop dev v start)

theorem seen_zero (dev : Device) (v : Volume) (start : ℕ) : Seen dev v start 0 [] := rfl

theorem Seen.succ (h : Seen dev v start i seen) (hc : hop dev v start i = some cluster) :
    Seen dev v start (i + 1) (seen ++ [cluster]) := by
  rw [Seen] at h ⊢
  rw [List.map_append, List.range_succ, List.map_append, h, List.map_singleton, List.map_singleton,
    hc]

theorem Seen.length (h : Seen dev v start i seen) : seen.length = i := by
  have hlength := congrArg List.length h
  rwa [List.length_map, List.length_map, List.length_range] at hlength

theorem Seen.mem_iff (h : Seen dev v start i seen) :
    cluster ∈ seen ↔ ∃ j < i, hop dev v start j = some cluster := by
  have hmem : cluster ∈ seen ↔ some cluster ∈ seen.map some := by
    rw [List.mem_map]
    exact ⟨fun hc => ⟨cluster, hc, rfl⟩, fun ⟨c, hc, heq⟩ => Option.some.inj heq ▸ hc⟩
  rw [hmem, h, List.mem_map]
  exact exists_congr fun j => and_congr_left fun _ => List.mem_range

/-- **What a visit does**: it succeeds exactly at a sound cluster, and reads at most the sector of
its link. -/
theorem visit_cases (hv : VolumeOk v partitionSectors lastLba) (hlast : lastLba < 2 ^ 32)
    (hseen : Seen dev v start i seen) (hc : hop dev v start i = some cluster) :
    (∃ next, Sound dev v start i ∧ InRange v cluster ∧ fatLink dev v cluster = some next ∧
      ¬BadLink v next ∧
      visit dev v seen cluster = .ok (fatLba v cluster) (clusterStart v cluster) next) ∨
    ¬Sound dev v start i ∧ (visit dev v seen cluster = .refused ∨ InRange v cluster ∧
      (visit dev v seen cluster = .unread (fatLba v cluster) ∨
        visit dev v seen cluster = .badLink (fatLba v cluster))) := by
  have hsame : ∀ {c}, hop dev v start i = some c → c = cluster := fun h =>
    Option.some.inj (h.symm.trans hc)
  rw [visit, hv.clusterLba hlast]
  by_cases hmem : cluster ∈ seen
  · rw [if_pos hmem]
    refine .inr ⟨fun ⟨c, next, hc', _, hnew, _⟩ => ?_, .inl rfl⟩
    obtain ⟨j, hj, hhop⟩ := hseen.mem_iff.1 hmem
    exact hnew j hj (hsame hc' ▸ hhop)
  rw [if_neg hmem]
  by_cases hin : InRange v cluster
  · have hsector := hv.fatSector hin
    have hlba : (v.fatFirst + cluster / 128) % 2 ^ 32 = fatLba v cluster := by
      have hfat := hv.fat
      have hdata := hv.data
      have hdevice := hv.device
      exact Nat.mod_eq_of_lt (by omega)
    rw [if_pos hin]
    dsimp only
    rw [if_neg (Nat.not_le.2 hsector), hlba]
    cases hread : dev (fatLba v cluster) with
    | none =>
      refine .inr ⟨fun ⟨c, next, hc', _, _, hlink, _⟩ => ?_, .inr ⟨hin, .inl rfl⟩⟩
      rw [hsame hc', fatLink, hread, Option.map_none] at hlink
      cases hlink
    | some buffer =>
      have hlink : fatLink dev v cluster = some (linkIn buffer cluster) := by
        rw [fatLink, hread, Option.map_some]
      dsimp only
      by_cases hbad : BadLink v (linkIn buffer cluster)
      · rw [if_pos hbad]
        refine .inr ⟨fun ⟨c, next, hc', _, _, hlink', hgood⟩ => ?_, .inr ⟨hin, .inr rfl⟩⟩
        rw [hsame hc', hlink] at hlink'
        exact hgood (Option.some.inj hlink' ▸ hbad)
      · rw [if_neg hbad]
        have hnew : ∀ j < i, hop dev v start j ≠ some cluster := fun j hj hhop =>
          hmem (hseen.mem_iff.2 ⟨j, hj, hhop⟩)
        exact .inl ⟨_, ⟨cluster, _, hc, hin, hnew, hlink, hbad⟩, hin, hlink, hbad, rfl⟩
  · rw [if_neg hin]
    exact .inr ⟨fun ⟨c, next, hc', hin', _⟩ => hin (hsame hc' ▸ hin'), .inl rfl⟩

end ZealBringup.Fat
