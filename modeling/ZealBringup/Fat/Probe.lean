import ZealBringup.Fat.Chain
import ZealBringup.Fat.Directory

/-!
# The root directory and the files

`pi4_fat32_probe` and `pi4_fat32_read_file` of `pi4_fat32.h`.

* `Report` — the report, with the LBAs that were read and the clusters that were visited.
* `rootEntries`, `rootSectors`, `rootClusters` — the three loops of the root scan.
* `pi4Fat32Probe` — the partition table, the boot sector and the root scan.
* `FileReport` — the report, with the LBAs that were read and the bytes that were written.
* `fileSectors`, `fileClusters` — the two loops.
* `pi4Fat32ReadFile` — the reader.
-/

namespace ZealBringup.Fat

/-- `enum pi4_fat32_result`, but for `PI4_FAT32_NOT_RUN`. -/
inductive RootResult where
  | unsupported
  | partitionBad
  | bootReadBad
  | bpbBad
  | fatReadBad
  | chainBad
  | directoryReadBad
  | directoryEntryBad
  | rootPass
  | rootPartial
  deriving DecidableEq

/-- `struct pi4_fat32_report`. The list of LBAs stands for `reads` and `last_read`, and `seen` is the
local array of the loop over the clusters. -/
structure Report where
  result : RootResult := .unsupported
  partitionIndex : ℕ := 0
  partitionType : ℕ := 0
  partitionTypes : List ℕ := [0, 0, 0, 0]
  partitionFirst : ℕ := 0
  partitionSectors : ℕ := 0
  directorySectors : ℕ := 0
  clusters : ℕ := 0
  complete : Bool := false
  bounded : Bool := false
  lbas : List ℕ := []
  seen : List ℕ := []
  label : List ℕ := []
  volume : Volume := {}
  entry : List Entry := []

def Report.listed (r : Report) : ℕ := r.entry.length

/-- The label `bounded`. -/
def Report.stopBounded (r : Report) : Report := { r with bounded := true, result := .rootPartial }

/-- The label `complete`. -/
def Report.stopComplete (r : Report) : Report := { r with complete := true, result := .rootPass }

/-- How an inner loop ends: with the whole scan, or with its own end. -/
inductive Scan where
  | stop (r : Report)
  | more (r : Report)

/-- A property of each of the two ends. -/
def Scan.Ends (stop more : Report → Prop) : Scan → Prop
  | .stop r => stop r
  | .more r => more r

/-- The loop over the entries of a sector, from an offset. -/
def rootEntries (v : Volume) (buffer : Sector) : ℕ → ℕ → Report → Scan
  | 0, _, r => .more r
  | left + 1, offset, r =>
      match pi4Fat32DirectoryEntry (buffer.bytes.drop offset) v with
      | .malformed => .stop { r with result := .directoryEntryBad }
      | .last => .stop r.stopComplete
      | .skip => rootEntries v buffer left (offset + 32) r
      | .live entry =>
          let r := { r with entry := r.entry ++ [entry] }
          if r.listed = 8 then .stop r.stopBounded
          else rootEntries v buffer left (offset + 32) r

/-- The loop over the sectors of a cluster, from one of them. -/
def rootSectors (dev : Device) (v : Volume) (first : ℕ) : ℕ → ℕ → Report → Scan
  | 0, _, r => .more r
  | left + 1, sector, r =>
      if r.directorySectors ≥ 8 then .stop r.stopBounded
      else
        let lba := (first + sector) % 2 ^ 32
        let r := { r with result := .directoryReadBad, lbas := r.lbas ++ [lba] }
        match dev lba with
        | none => .stop r
        | some buffer =>
            match rootEntries v buffer 16 0 { r with directorySectors := r.directorySectors + 1 } with
            | .stop r => .stop r
            | .more r => rootSectors dev v first left (sector + 1) r

/-- The loop over the clusters, with so many turns left. -/
def rootClusters (dev : Device) (v : Volume) : ℕ → ℕ → Report → Report
  | 0, _, r => r.stopBounded
  | left + 1, cluster, r =>
      let turn := { r with result := .chainBad, seen := r.seen ++ [cluster] }
      match visit dev v r.seen cluster with
      | .refused => turn
      | .unread lba => { turn with result := .fatReadBad, lbas := r.lbas ++ [lba] }
      | .badLink lba => { turn with lbas := r.lbas ++ [lba] }
      | .ok lba first next =>
          let turn := { turn with lbas := r.lbas ++ [lba], clusters := r.clusters + 1 }
          match rootSectors dev v first v.sectorsPerCluster 0 turn with
          | .stop r => r
          | .more r => if IsEnd next then r.stopComplete else rootClusters dev v left next r

/-- The volume label. -/
def volumeLabel (buffer : Sector) : List ℕ :=
  (List.range 11).map fun i =>
    let c := byteAt buffer.bytes (71 + i)
    if c ≥ 0x20 ∧ c ≤ 0x7e then c else 63

/-- The root scan, behind an accepted boot sector. -/
def scanRoot (dev : Device) (buffer : Sector) (v : Volume) (r : Report) : Report :=
  rootClusters dev v 8 v.rootCluster { r with volume := v, label := volumeLabel buffer }

/-- The loop over the partitions, `error` where it ends the probe. -/
def partitions (sector0 : Sector) (lastLba : ℕ) : List ℕ → Report → Except Report Report
  | [], r => .ok r
  | i :: rest, r =>
      let p := sector0.bytes.drop (446 + i * 16)
      let type := byteAt p 4
      let first := pi4Fat32Le32 (p.drop 8)
      let sectors := pi4Fat32Le32 (p.drop 12)
      if type = 0xee then .error r
      else if type ≠ 0x0b ∧ type ≠ 0x0c ∧ type ≠ 0x1b ∧ type ≠ 0x1c then
        partitions sector0 lastLba rest r
      else if (byteAt p 0 ≠ 0 ∧ byteAt p 0 ≠ 0x80) ∨ first = 0 ∨ sectors = 0 ∨
          first + sectors > lastLba + 1 then
        .error { r with result := .partitionBad }
      else if r.partitionIndex = 0 then
        partitions sector0 lastLba rest
          { r with
            partitionIndex := i + 1
            partitionType := type
            partitionFirst := first
            partitionSectors := sectors }
      else partitions sector0 lastLba rest r

/-- The probe of a device with a partition table. -/
def probePartition (sector0 : Sector) (lastLba : ℕ) (dev : Device) : Report :=
  let types := (List.range 4).map fun i => byteAt sector0.bytes (450 + i * 16)
  match partitions sector0 lastLba (List.range 4) { partitionTypes := types } with
  | .error r => r
  | .ok r =>
      if r.partitionIndex = 0 then r
      else
        let r := { r with result := .bootReadBad, lbas := [r.partitionFirst] }
        match dev r.partitionFirst with
        | none => r
        | some buffer =>
            match pi4Fat32Bpb buffer r.partitionFirst r.partitionSectors lastLba with
            | none => { r with result := .bpbBad }
            | some v => scanRoot dev buffer v r

/-- The boot sector in the first sector of the device. -/
def wholeDevice (sector0 : Sector) (lastLba : ℕ) : Option Volume :=
  if lastLba ≠ 2 ^ 32 - 1 then pi4Fat32Bpb sector0 0 (lastLba + 1) lastLba else none

/-- `pi4_fat32_probe`. -/
def pi4Fat32Probe (sector0 : Sector) (lastLba blockBytes : ℕ) (dev : Device) : Report :=
  if blockBytes ≠ 512 ∨ ¬pi4Fat32Signature sector0.bytes then {}
  else
    match wholeDevice sector0 lastLba with
    | some v => scanRoot dev sector0 v { partitionSectors := lastLba + 1 }
    | none => probePartition sector0 lastLba dev

/-! ## Files -/

/-- The results of `enum pi4_fat32_file_result` that the reader gives. -/
inductive FileResult where
  | invalid
  | tooLarge
  | fatReadBad
  | chainBad
  | dataReadBad
  | readPass
  deriving DecidableEq

/-- `struct pi4_fat32_file_report`. The list of LBAs stands for `reads` and `last_read`, `seen` is the
local array, and `writes` are the bytes that were written to `out`, with their places. -/
structure FileReport where
  result : FileResult := .invalid
  bytes : ℕ := 0
  clusters : ℕ := 0
  lbas : List ℕ := []
  seen : List ℕ := []
  writes : List (ℕ × UInt8) := []

/-- How the loop over the sectors ends. -/
inductive FileScan where
  | stop (r : FileReport)
  | more (r : FileReport)

/-- A property of each of the two ends. -/
def FileScan.Ends (stop more : FileReport → Prop) : FileScan → Prop
  | .stop f => stop f
  | .more f => more f

/-- The loop over the sectors of a cluster, from one of them. -/
def fileSectors (dev : Device) (bytes first : ℕ) : ℕ → ℕ → FileReport → FileScan
  | 0, _, r => .more r
  | left + 1, sector, r =>
      let remaining := bytes - r.bytes
      let count := if remaining < 512 then remaining else 512
      let lba := (first + sector) % 2 ^ 32
      let turn := { r with result := .dataReadBad, lbas := r.lbas ++ [lba] }
      match dev lba with
      | none => .stop turn
      | some buffer =>
          let turn :=
            { turn with
              writes := r.writes ++
                (List.range count).map fun i => (r.bytes + i, buffer.bytes.getD i 0)
              bytes := r.bytes + count }
          if turn.bytes = bytes then .stop { turn with result := .readPass }
          else fileSectors dev bytes first left (sector + 1) turn

/-- The loop over the clusters, with so many turns left. -/
def fileClusters (dev : Device) (v : Volume) (bytes : ℕ) : ℕ → ℕ → FileReport → FileReport
  | 0, _, r => { r with result := .chainBad }
  | left + 1, cluster, r =>
      let turn := { r with result := .chainBad, seen := r.seen ++ [cluster] }
      match visit dev v r.seen cluster with
      | .refused => turn
      | .unread lba => { turn with result := .fatReadBad, lbas := r.lbas ++ [lba] }
      | .badLink lba => { turn with lbas := r.lbas ++ [lba] }
      | .ok lba first next =>
          let turn := { turn with lbas := r.lbas ++ [lba], clusters := r.clusters + 1 }
          match fileSectors dev bytes first v.sectorsPerCluster 0 turn with
          | .stop r => r
          | .more r =>
              if IsEnd next then { r with result := .chainBad }
              else fileClusters dev v bytes left next r

/-- `pi4_fat32_read_file`. -/
def pi4Fat32ReadFile (v : Volume) (file : Entry) (dev : Device) (capacity : ℕ) : FileReport :=
  if file.attributes &&& 0xd8 ≠ 0 ∨ v.sectorsPerCluster = 0 ∨ v.sectorsPerCluster > 128 then {}
  else if file.bytes > capacity ∨ file.bytes > 2048 then { result := .tooLarge }
  else if file.bytes = 0 then { result := .readPass }
  else fileClusters dev v file.bytes 4 file.cluster {}

end ZealBringup.Fat
