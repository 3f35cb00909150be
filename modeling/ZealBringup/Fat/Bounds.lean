import ZealBringup.Fat.Probe

/-!
# Bounds of the reads

Every LBA that the probe and the file reader ask for is inside of the partition, and the loops are
short.

* `Bounded`, `FileBounded` — what the loops keep of their reports.
* `rootClusters_bounded`, `fileClusters_bounded` — the loops keep it.
* `fat_reads_in_volume` — the bounds of a probe and of the reads of its files.
-/

namespace ZealBringup.Fat

variable {dev : Device} {v : Volume} {buffer sector0 : Sector} {r q : Report} {f : FileReport}
  {P : ℕ → Prop} {s : List ℕ}
  {left offset sector cluster i start bytes partitionSectors lastLba n : ℕ}

/-- An LBA of the volume. -/
def InVolume (v : Volume) (lba : ℕ) : Prop := v.first ≤ lba ∧ lba < v.first + v.sectors

/-- A sum for a sector of a cluster does not wrap, and is in the volume. -/
theorem VolumeOk.sectorLba (hv : VolumeOk v partitionSectors lastLba) (hlast : lastLba < 2 ^ 32)
    (hc : InRange v cluster) (hsector : sector < v.sectorsPerCluster) :
    (clusterStart v cluster + sector) % 2 ^ 32 = clusterStart v cluster + sector ∧
      InVolume v (clusterStart v cluster + sector) := by
  obtain ⟨hlow, hhigh⟩ := hv.clusterStart_le hc
  have hfat := hv.fat
  have hdevice := hv.device
  rw [InVolume]
  exact ⟨Nat.mod_eq_of_lt (by omega), by omega, by omega⟩

theorem VolumeOk.fatLba (hv : VolumeOk v partitionSectors lastLba) (hc : InRange v cluster) :
    InVolume v (fatLba v cluster) := by
  have hsector := hv.fatSector hc
  have hfat := hv.fat
  have hdata := hv.data
  rw [InVolume, ZealBringup.Fat.fatLba]
  omega

/-! ## The root scan -/

/-- What the loops keep: LBAs with a property, at most so many entries, the clusters that were
visited, and the volume and the partition of the start. -/
structure Bounded (P : ℕ → Prop) (q : Report) (n : ℕ) (s : List ℕ) (r : Report) : Prop where
  lbas : ∀ lba ∈ r.lbas, P lba
  entry : r.listed ≤ n
  directory : r.directorySectors ≤ 8
  seen : r.seen = s
  clusters : r.clusters ≤ s.length
  volume : r.volume = q.volume
  partition : r.partitionFirst = q.partitionFirst ∧ r.partitionSectors = q.partitionSectors

theorem Bounded.mono {m : ℕ} (h : Bounded P q n s r) (hnm : n ≤ m) : Bounded P q m s r :=
  { h with entry := h.entry.trans hnm }

theorem mem_append_singleton {lbas : List ℕ} {lba : ℕ} (h : ∀ lba ∈ lbas, P lba) (hP : P lba) :
    ∀ lba' ∈ lbas ++ [lba], P lba' := by
  intro lba' hmem
  rcases List.mem_append.1 hmem with hmem | hmem
  · exact h lba' hmem
  · exact List.mem_singleton.1 hmem ▸ hP

theorem rootEntries_bounded (v : Volume) (buffer : Sector) (left offset : ℕ)
    (h : Bounded P q 7 s r) :
    (rootEntries v buffer left offset r).Ends (Bounded P q 8 s) (Bounded P q 7 s) := by
  induction left generalizing offset r with
  | zero => exact h
  | succ left ih =>
    have h8 : Bounded P q 8 s r := h.mono (by decide)
    rw [rootEntries]
    cases pi4Fat32DirectoryEntry (buffer.bytes.drop offset) v with
    | malformed =>
      exact ⟨h8.lbas, h8.entry, h8.directory, h8.seen, h8.clusters, h8.volume, h8.partition⟩
    | last =>
      exact ⟨h8.lbas, h8.entry, h8.directory, h8.seen, h8.clusters, h8.volume, h8.partition⟩
    | skip => exact ih (offset + 32) h
    | live entry =>
      have hlisted : Report.listed { r with entry := r.entry ++ [entry] } = r.listed + 1 := by
        rw [Report.listed, List.length_append, List.length_singleton, Report.listed]
      have hentry := h.entry
      dsimp only
      split
      · next hfull =>
        exact ⟨h.lbas, Nat.le_of_eq hfull, h.directory, h.seen, h.clusters, h.volume, h.partition⟩
      · exact ih (offset + 32)
          ⟨h.lbas, by omega, h.directory, h.seen, h.clusters, h.volume, h.partition⟩

theorem rootSectors_bounded (dev : Device) (hv : VolumeOk v partitionSectors lastLba) (hlast : lastLba < 2 ^ 32)
    (hc : InRange v cluster) (hP : ∀ lba, InVolume v lba → P lba)
    (hleft : sector + left = v.sectorsPerCluster) (h : Bounded P q 7 s r) :
    (rootSectors dev v (clusterStart v cluster) left sector r).Ends
      (Bounded P q 8 s) (Bounded P q 7 s) := by
  induction left generalizing sector r with
  | zero => exact h
  | succ left ih =>
    rw [rootSectors]
    split
    · have h8 : Bounded P q 8 s r := h.mono (by decide)
      exact ⟨h8.lbas, h8.entry, h8.directory, h8.seen, h8.clusters, h8.volume, h8.partition⟩
    next hroom =>
    obtain ⟨hlba, hin⟩ := hv.sectorLba hlast hc (show sector < v.sectorsPerCluster by omega)
    have hlbas := mem_append_singleton h.lbas (hP _ hin)
    have hentry := h.entry
    rw [hlba]
    dsimp only
    cases dev (clusterStart v cluster + sector) with
    | none => exact ⟨hlbas, by exact hentry.trans (by decide), h.directory, h.seen, h.clusters,
        h.volume, h.partition⟩
    | some buffer =>
      have hnext := rootEntries_bounded v buffer 16 0
        (⟨hlbas, hentry, by dsimp only; omega, h.seen, h.clusters, h.volume, h.partition⟩ :
          Bounded P q 7 s { r with
            result := .directoryReadBad
            lbas := r.lbas ++ [clusterStart v cluster + sector]
            directorySectors := r.directorySectors + 1 })
      dsimp only
      cases hscan : rootEntries v buffer 16 0 { r with
          result := .directoryReadBad
          lbas := r.lbas ++ [clusterStart v cluster + sector]
          directorySectors := r.directorySectors + 1 } with
      | stop r' =>
        rw [hscan] at hnext
        exact hnext
      | more r' =>
        rw [hscan] at hnext
        exact ih (by omega) hnext

/-- **The root scan** stays in the volume and is short. -/
theorem rootClusters_bounded (dev : Device) (hv : VolumeOk v partitionSectors lastLba) (hlast : lastLba < 2 ^ 32)
    (hP : ∀ lba, InVolume v lba → P lba) (hseen : Seen dev v start i s)
    (hc : hop dev v start i = some cluster) (hleft : i + left = n) (h : Bounded P q 7 s r) :
    ∃ s', s'.length ≤ n ∧ Bounded P q 8 s' (rootClusters dev v left cluster r) := by
  induction left generalizing cluster i s r with
  | zero =>
    have h8 : Bounded P q 8 s r := h.mono (by decide)
    exact ⟨s, by rw [hseen.length]; omega, h8.lbas, h8.entry, h8.directory, h8.seen, h8.clusters,
      h8.volume, h8.partition⟩
  | succ left ih =>
    have hlength : (s ++ [cluster]).length = s.length + 1 := by
      rw [List.length_append, List.length_singleton]
    have hn : (s ++ [cluster]).length ≤ n := by
      rw [hlength, hseen.length]
      omega
    have hs : r.seen ++ [cluster] = s ++ [cluster] := by rw [h.seen]
    have hclusters : r.clusters + 1 ≤ (s ++ [cluster]).length := by
      rw [hlength]
      exact Nat.succ_le_succ h.clusters
    have h8 : Bounded P q 8 s r := h.mono (by decide)
    rw [rootClusters, h.seen]
    rcases visit_cases hv hlast hseen hc with ⟨next, -, hin, hlink, hgood, hvisit⟩ |
      ⟨-, hvisit | ⟨hin, hvisit | hvisit⟩⟩
    · have hlbas := mem_append_singleton h.lbas (hP _ (hv.fatLba hin))
      have hsectors := rootSectors_bounded dev hv hlast hin hP (Nat.zero_add _)
        (⟨hlbas, h.entry, h.directory, rfl, hclusters, h.volume, h.partition⟩ :
          Bounded P q 7 (s ++ [cluster]) { r with
            result := .chainBad
            seen := s ++ [cluster]
            lbas := r.lbas ++ [fatLba v cluster]
            clusters := r.clusters + 1 })
      rw [hvisit]
      dsimp only
      cases hscan : rootSectors dev v (clusterStart v cluster) v.sectorsPerCluster 0 { r with
            result := .chainBad
            seen := s ++ [cluster]
            lbas := r.lbas ++ [fatLba v cluster]
            clusters := r.clusters + 1 } with
      | stop r' =>
        rw [hscan] at hsectors
        exact ⟨_, hn, hsectors⟩
      | more r' =>
        rw [hscan] at hsectors
        have hmore : Bounded P q 7 (s ++ [cluster]) r' := hsectors
        dsimp only
        split
        · have h8' := hmore.mono (m := 8) (by decide)
          exact ⟨_, hn, h8'.lbas, h8'.entry, h8'.directory, h8'.seen, h8'.clusters, h8'.volume,
            h8'.partition⟩
        · next hend =>
          exact ih (hseen.succ hc) (hop_succ hc hlink hgood hend) (by omega) hmore
    · rw [hvisit]
      exact ⟨_, hn, h8.lbas, h8.entry, h8.directory, rfl, Nat.le_of_succ_le hclusters, h8.volume,
        h8.partition⟩
    all_goals
      have hlbas := mem_append_singleton h.lbas (hP _ (hv.fatLba hin))
      rw [hvisit]
      exact ⟨_, hn, hlbas, h8.entry, h8.directory, rfl, Nat.le_of_succ_le hclusters, h8.volume,
        h8.partition⟩

/-! ## The file reader -/

/-- What the loops of the file reader keep. -/
structure FileBounded (P : ℕ → Prop) (s : List ℕ) (f : FileReport) : Prop where
  lbas : ∀ lba ∈ f.lbas, P lba
  seen : f.seen = s
  clusters : f.clusters ≤ s.length

theorem fileSectors_bounded (dev : Device) (bytes : ℕ) (hv : VolumeOk v partitionSectors lastLba) (hlast : lastLba < 2 ^ 32)
    (hc : InRange v cluster) (hP : ∀ lba, InVolume v lba → P lba)
    (hleft : sector + left = v.sectorsPerCluster) (h : FileBounded P s f) :
    (fileSectors dev bytes (clusterStart v cluster) left sector f).Ends
      (FileBounded P s) (FileBounded P s) := by
  induction left generalizing sector f with
  | zero => exact h
  | succ left ih =>
    obtain ⟨hlba, hin⟩ := hv.sectorLba hlast hc (show sector < v.sectorsPerCluster by omega)
    have hlbas := mem_append_singleton h.lbas (hP _ hin)
    rw [fileSectors, hlba]
    dsimp only
    cases dev (clusterStart v cluster + sector) with
    | none => exact ⟨hlbas, h.seen, h.clusters⟩
    | some buffer =>
      generalize (if bytes - f.bytes < 512 then bytes - f.bytes else 512) = count
      dsimp only
      split
      · exact ⟨hlbas, h.seen, h.clusters⟩
      · exact ih (by omega) ⟨hlbas, h.seen, h.clusters⟩

theorem fileClusters_bounded (dev : Device) (bytes : ℕ) (hv : VolumeOk v partitionSectors lastLba) (hlast : lastLba < 2 ^ 32)
    (hP : ∀ lba, InVolume v lba → P lba) (hseen : Seen dev v start i s)
    (hc : hop dev v start i = some cluster) (hleft : i + left = n) (h : FileBounded P s f) :
    ∃ s', s'.length ≤ n ∧ FileBounded P s' (fileClusters dev v bytes left cluster f) := by
  induction left generalizing cluster i s f with
  | zero => exact ⟨s, by rw [hseen.length]; omega, h.lbas, h.seen, h.clusters⟩
  | succ left ih =>
    have hlength : (s ++ [cluster]).length = s.length + 1 := by
      rw [List.length_append, List.length_singleton]
    have hn : (s ++ [cluster]).length ≤ n := by
      rw [hlength, hseen.length]
      omega
    have hclusters : f.clusters + 1 ≤ (s ++ [cluster]).length := by
      rw [hlength]
      exact Nat.succ_le_succ h.clusters
    rw [fileClusters, h.seen]
    rcases visit_cases hv hlast hseen hc with ⟨next, -, hin, hlink, hgood, hvisit⟩ |
      ⟨-, hvisit | ⟨hin, hvisit | hvisit⟩⟩
    · have hlbas := mem_append_singleton h.lbas (hP _ (hv.fatLba hin))
      have hsectors := fileSectors_bounded dev bytes hv hlast hin hP (Nat.zero_add _)
        (⟨hlbas, rfl, hclusters⟩ :
          FileBounded P (s ++ [cluster]) { f with
            result := .chainBad
            seen := s ++ [cluster]
            lbas := f.lbas ++ [fatLba v cluster]
            clusters := f.clusters + 1 })
      rw [hvisit]
      dsimp only
      cases hscan : fileSectors dev bytes (clusterStart v cluster) v.sectorsPerCluster 0 { f with
            result := .chainBad
            seen := s ++ [cluster]
            lbas := f.lbas ++ [fatLba v cluster]
            clusters := f.clusters + 1 } with
      | stop f' =>
        rw [hscan] at hsectors
        exact ⟨_, hn, hsectors⟩
      | more f' =>
        rw [hscan] at hsectors
        have hmore : FileBounded P (s ++ [cluster]) f' := hsectors
        dsimp only
        split
        · exact ⟨_, hn, hmore.lbas, hmore.seen, hmore.clusters⟩
        · next hend =>
          exact ih (hseen.succ hc) (hop_succ hc hlink hgood hend) (by omega) hmore
    · rw [hvisit]
      exact ⟨_, hn, h.lbas, rfl, Nat.le_of_succ_le hclusters⟩
    all_goals
      have hlbas := mem_append_singleton h.lbas (hP _ (hv.fatLba hin))
      rw [hvisit]
      exact ⟨_, hn, hlbas, rfl, Nat.le_of_succ_le hclusters⟩

/-- **The file reader** stays in an accepted volume and is short. -/
theorem pi4Fat32ReadFile_bounded (hv : VolumeOk v partitionSectors lastLba)
    (hlast : lastLba < 2 ^ 32) (file : Entry) (dev : Device) (capacity : ℕ) :
    ∃ s, s.length ≤ 4 ∧ FileBounded (InVolume v) s (pi4Fat32ReadFile v file dev capacity) := by
  have hnone : ∀ result, FileBounded (InVolume v) [] { result := result } := fun result =>
    ⟨fun lba hlba => absurd hlba List.not_mem_nil, rfl, Nat.le_refl 0⟩
  rw [pi4Fat32ReadFile]
  split
  · exact ⟨[], Nat.zero_le 4, hnone _⟩
  split
  · exact ⟨[], Nat.zero_le 4, hnone _⟩
  split
  · exact ⟨[], Nat.zero_le 4, hnone _⟩
  · exact fileClusters_bounded dev file.bytes hv hlast (fun lba hlba => hlba) (seen_zero dev v file.cluster) rfl
      (Nat.zero_add 4) (hnone _)

/-! ## The probe -/

/-- A partition on the device. -/
def PartitionOk (first sectors lastLba : ℕ) : Prop := 0 < sectors ∧ first + sectors ≤ lastLba + 1

/-- The report before the root scan: nothing is listed, and a partition that was found is on the
device. -/
structure Fresh (lastLba : ℕ) (r : Report) : Prop where
  lbas : r.lbas = []
  entry : r.entry = []
  directory : r.directorySectors = 0
  seen : r.seen = []
  clusters : r.clusters = 0
  result : r.result ≠ .rootPass ∧ r.result ≠ .rootPartial
  partition : r.partitionIndex ≠ 0 → PartitionOk r.partitionFirst r.partitionSectors lastLba

theorem partitions_fresh (sector0 : Sector) (is : List ℕ) (h : Fresh lastLba r) :
    (∀ r', partitions sector0 lastLba is r = .error r' → Fresh lastLba r') ∧
      ∀ r', partitions sector0 lastLba is r = .ok r' → Fresh lastLba r' := by
  induction is generalizing r with
  | nil =>
    rw [partitions]
    exact ⟨fun r' hr' => (nomatch hr'), fun r' hr' => Except.ok.inj hr' ▸ h⟩
  | cons i is ih =>
    rw [partitions]
    split
    · exact ⟨fun r' hr' => Except.error.inj hr' ▸ h, fun r' hr' => nomatch hr'⟩
    split
    · exact ih h
    split
    · refine ⟨fun r' hr' => ?_, fun r' hr' => nomatch hr'⟩
      rw [← Except.error.inj hr']
      exact ⟨h.lbas, h.entry, h.directory, h.seen, h.clusters,
        ⟨fun h0 => (nomatch h0), fun h0 => (nomatch h0)⟩, h.partition⟩
    next hbad =>
    split
    · refine ih ⟨h.lbas, h.entry, h.directory, h.seen, h.clusters, h.result, fun _ => ⟨?_, ?_⟩⟩
      all_goals
        dsimp only
        omega
    · exact ih h

/-- What holds of the report of a probe. -/
structure ProbeOk (lastLba : ℕ) (r : Report) : Prop where
  lbas : ∀ lba ∈ r.lbas, lba ≤ lastLba ∧ r.partitionFirst ≤ lba ∧
    lba < r.partitionFirst + r.partitionSectors
  listed : r.listed ≤ 8
  directory : r.directorySectors ≤ 8
  seen : r.seen.length ≤ 8
  clusters : r.clusters ≤ r.seen.length
  volume : r.entry ≠ [] → VolumeOk r.volume r.partitionSectors lastLba ∧
    r.volume.first = r.partitionFirst

/-- A report without a root scan. -/
theorem Fresh.probeOk (h : Fresh lastLba r) : ProbeOk lastLba r := by
  refine ⟨fun lba hlba => ?_, ?_, ?_, ?_, ?_, fun hne => absurd h.entry hne⟩
  · rw [h.lbas] at hlba
    exact absurd hlba List.not_mem_nil
  · rw [Report.listed, h.entry]
    exact Nat.zero_le 8
  · rw [h.directory]
    exact Nat.zero_le 8
  · rw [h.seen]
    exact Nat.zero_le 8
  · rw [h.clusters]
    exact Nat.zero_le _

/-- A report at the start of the root scan, with an accepted volume in its partition. -/
structure Ready (lastLba : ℕ) (v : Volume) (r : Report) : Prop where
  volume : VolumeOk v r.partitionSectors lastLba
  first : v.first = r.partitionFirst
  lbas : ∀ lba ∈ r.lbas, lba ≤ lastLba ∧ r.partitionFirst ≤ lba ∧
    lba < r.partitionFirst + r.partitionSectors
  entry : r.entry = []
  directory : r.directorySectors = 0
  seen : r.seen = []
  clusters : r.clusters = 0

/-- **How a probe ends**: before the root scan, or with it. -/
theorem pi4Fat32Probe_cases (sector0 : Sector) (hlast : lastLba < 2 ^ 32) (blockBytes : ℕ)
    (dev : Device) :
    (ProbeOk lastLba (pi4Fat32Probe sector0 lastLba blockBytes dev) ∧
      (pi4Fat32Probe sector0 lastLba blockBytes dev).result ≠ .rootPass ∧
      (pi4Fat32Probe sector0 lastLba blockBytes dev).result ≠ .rootPartial) ∨
    ∃ buffer v r, Ready lastLba v r ∧
      pi4Fat32Probe sector0 lastLba blockBytes dev = scanRoot dev buffer v r := by
  have hfresh : ∀ types, Fresh lastLba { partitionTypes := types } := fun types =>
    ⟨rfl, rfl, rfl, rfl, rfl, ⟨fun h0 => (nomatch h0), fun h0 => (nomatch h0)⟩,
      fun h0 => absurd rfl h0⟩
  rw [pi4Fat32Probe]
  split
  · exact .inl ⟨(hfresh _).probeOk, (hfresh _).result⟩
  cases hwhole : wholeDevice sector0 lastLba with
  | some v =>
    rw [wholeDevice] at hwhole
    split at hwhole
    · obtain ⟨hfirst, hv⟩ := pi4Fat32Bpb_ok hwhole hlast
      exact .inr ⟨sector0, v, _, ⟨hv, hfirst, fun lba hlba => absurd hlba List.not_mem_nil, rfl,
        rfl, rfl, rfl⟩, rfl⟩
    · cases hwhole
  | none =>
    dsimp only
    rw [probePartition]
    dsimp only
    obtain ⟨herror, hok⟩ := partitions_fresh sector0 (List.range 4)
      (hfresh ((List.range 4).map fun i => byteAt sector0.bytes (450 + i * 16)))
    cases hpartitions : partitions sector0 lastLba (List.range 4)
        { partitionTypes := (List.range 4).map fun i => byteAt sector0.bytes (450 + i * 16) } with
    | error r => exact .inl ⟨(herror r hpartitions).probeOk, (herror r hpartitions).result⟩
    | ok r =>
      have h := hok r hpartitions
      dsimp only
      split
      · exact .inl ⟨h.probeOk, h.result⟩
      next hfound =>
      obtain ⟨hpos, hin⟩ := h.partition hfound
      have hread : ∀ lba ∈ [r.partitionFirst], lba ≤ lastLba ∧ r.partitionFirst ≤ lba ∧
          lba < r.partitionFirst + r.partitionSectors := fun lba hlba => by
        rw [List.mem_singleton.1 hlba]
        omega
      have hboot : ∀ result, ProbeOk lastLba
          { r with result := result, lbas := [r.partitionFirst] } := fun result =>
        { h.probeOk with lbas := hread }
      cases dev r.partitionFirst with
      | none => exact .inl ⟨hboot _, fun h0 => (nomatch h0), fun h0 => (nomatch h0)⟩
      | some buffer =>
        dsimp only
        cases hbpb : pi4Fat32Bpb buffer r.partitionFirst r.partitionSectors lastLba with
        | none => exact .inl ⟨hboot _, fun h0 => (nomatch h0), fun h0 => (nomatch h0)⟩
        | some v =>
          obtain ⟨hfirst, hv⟩ := pi4Fat32Bpb_ok hbpb hlast
          exact .inr ⟨buffer, v, { r with result := .bootReadBad, lbas := [r.partitionFirst] },
            ⟨hv, hfirst, hread, h.entry, h.directory, h.seen, h.clusters⟩, rfl⟩

/-- The root scan of an accepted volume in its partition. -/
theorem Ready.probeOk (h : Ready lastLba v r) (hlast : lastLba < 2 ^ 32) (dev : Device)
    (buffer : Sector) :
    ProbeOk lastLba (scanRoot dev buffer v r) ∧ (scanRoot dev buffer v r).volume = v := by
  have hP : ∀ lba, InVolume v lba → lba ≤ lastLba ∧ r.partitionFirst ≤ lba ∧
      lba < r.partitionFirst + r.partitionSectors := fun lba hlba => by
    have hfirst := h.first
    have hpartition := h.volume.partition
    have hdevice := h.volume.device
    rw [InVolume] at hlba
    omega
  obtain ⟨s, hs, hscan⟩ := rootClusters_bounded dev (s := [])
    (q := { r with volume := v, label := volumeLabel buffer })
    (r := { r with volume := v, label := volumeLabel buffer }) h.volume hlast hP
    (seen_zero dev v v.rootCluster) rfl (Nat.zero_add 8)
    ⟨h.lbas, by rw [Report.listed, h.entry]; exact Nat.zero_le 7,
      Nat.le_trans (Nat.le_of_eq h.directory) (Nat.zero_le 8), h.seen, Nat.le_of_eq h.clusters,
      rfl, rfl, rfl⟩
  obtain ⟨hpf, hps⟩ := hscan.partition
  refine ⟨⟨?_, hscan.entry, hscan.directory, hscan.seen ▸ hs, hscan.seen ▸ hscan.clusters,
    fun _ => ?_⟩, hscan.volume⟩
  · rw [scanRoot, hpf, hps]
    exact hscan.lbas
  · rw [scanRoot, hscan.volume, hpf, hps]
    exact ⟨h.volume, h.first⟩

/-- **The probe** stays in its partition and is short. -/
theorem pi4Fat32Probe_ok (sector0 : Sector) (hlast : lastLba < 2 ^ 32) (blockBytes : ℕ)
    (dev : Device) : ProbeOk lastLba (pi4Fat32Probe sector0 lastLba blockBytes dev) := by
  rcases pi4Fat32Probe_cases sector0 hlast blockBytes dev with ⟨hok, -⟩ | ⟨buffer, v, r, h, hscan⟩
  · exact hok
  · rw [hscan]
    exact (h.probeOk hlast dev buffer).1

/-- The sums of 32 bits are those of the numbers. -/
structure NoWrap (b : Sector) (first : ℕ) (v : Volume) : Prop where
  fatFirst : v.fatFirst = first + (readBpb b.bytes).reserved +
    (readBpb b.bytes).active * (readBpb b.bytes).fat
  dataFirst : v.dataFirst = first + (readBpb b.bytes).reserved +
    (readBpb b.bytes).fats * (readBpb b.bytes).fat
  links : ∀ cluster, InRange v cluster → fatLba v cluster < 2 ^ 32
  clusters : ∀ cluster lba, pi4Fat32ClusterLba v cluster = some lba →
    lba = v.dataFirst + (cluster - 2) * v.sectorsPerCluster ∧ lba + v.sectorsPerCluster ≤ 2 ^ 32

theorem pi4Fat32Bpb_noWrap {b : Sector} {first : ℕ}
    (h : pi4Fat32Bpb b first partitionSectors lastLba = some v) (hlast : lastLba < 2 ^ 32) :
    NoWrap b first v := by
  obtain ⟨-, -, hfat, hdata⟩ := pi4Fat32Bpb_exact h hlast
  obtain ⟨-, hv⟩ := pi4Fat32Bpb_ok h hlast
  have hdevice := hv.device
  refine ⟨hfat, hdata, fun cluster hc => ?_, fun cluster lba hlba => ?_⟩
  · have hin := (hv.fatLba hc).2
    omega
  · rw [hv.clusterLba hlast] at hlba
    split at hlba
    · next hc =>
      have hstop := (hv.clusterStart_le hc).2
      rw [← Option.some.inj hlba]
      exact ⟨rfl, by omega⟩
    · cases hlba

/-- **FAT32 reads stay inside of the volume**, whatever the device answers, and no loop is long. -/
theorem fat_reads_in_volume (sector0 : Sector) (lastLba : UInt32) (blockBytes : ℕ)
    (dev : Device) :
    let r := pi4Fat32Probe sector0 lastLba.toNat blockBytes dev
    (∀ lba ∈ r.lbas, lba ≤ lastLba.toNat ∧ r.partitionFirst ≤ lba ∧
      lba < r.partitionFirst + r.partitionSectors) ∧
    (r.listed ≤ 8 ∧ r.directorySectors ≤ 8 ∧ r.seen.length ≤ 8 ∧ r.clusters ≤ 8) ∧
    (∀ file ∈ r.entry, ∀ (dev' : Device) (capacity : ℕ),
      let f := pi4Fat32ReadFile r.volume file dev' capacity
      (∀ lba ∈ f.lbas, lba ≤ lastLba.toNat ∧ r.partitionFirst ≤ lba ∧
        lba < r.partitionFirst + r.partitionSectors) ∧ f.seen.length ≤ 4 ∧ f.clusters ≤ 4) ∧
    ∀ b first partitionSectors v,
      pi4Fat32Bpb b first partitionSectors lastLba.toNat = some v → NoWrap b first v := by
  intro r
  have hlast : lastLba.toNat < 2 ^ 32 := lastLba.toNat_lt
  have h : ProbeOk lastLba.toNat r := pi4Fat32Probe_ok sector0 hlast blockBytes dev
  refine ⟨h.lbas, ⟨h.listed, h.directory, h.seen, h.clusters.trans h.seen⟩, ?_,
    fun b first partitionSectors v hbpb => pi4Fat32Bpb_noWrap hbpb hlast⟩
  intro file hfile dev' capacity
  obtain ⟨hv, hfirst⟩ := h.volume (List.ne_nil_of_mem hfile)
  obtain ⟨s, hs, hf⟩ := pi4Fat32ReadFile_bounded hv hlast file dev' capacity
  have hpartition := hv.partition
  have hdevice := hv.device
  refine ⟨fun lba hlba => ?_, hf.seen ▸ hs, hf.clusters.trans hs⟩
  have hin := hf.lbas lba hlba
  rw [InVolume] at hin
  omega

end ZealBringup.Fat
