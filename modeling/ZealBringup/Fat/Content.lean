import Mathlib.Logic.Function.Basic
import ZealBringup.Fat.Bounds

/-!
# Contents of files

What the file reader gives, against the chain of the file.

* `chainData` — the sectors of a chain one after another.
* `Readable` — a chain has all that a file of so many bytes needs.
* `Outcome` — the reader passes exactly for such chains, and writes the bytes of the file.
* `fat_file_read` — this for every accepted volume.
-/

namespace ZealBringup.Fat

variable {dev : Device} {v : Volume} {buffer : Sector} {f : FileReport} {s : List ℕ}
  {left sector cluster i n m start bytes partitionSectors lastLba : ℕ}

/-! ## What a file needs -/

/-- The first sectors of a chain, one after another. -/
def chainData (dev : Device) (v : Volume) (start n : ℕ) : List UInt8 :=
  (List.range n).flatMap fun s => ((chainSector dev v start s).map Sector.bytes).getD []

/-- The sectors of so many bytes. -/
def sectorsOf (bytes : ℕ) : ℕ := (bytes + 511) / 512

/-- The clusters of so many bytes. -/
def clustersOf (v : Volume) (bytes : ℕ) : ℕ :=
  (bytes + (512 * v.sectorsPerCluster - 1)) / (512 * v.sectorsPerCluster)

/-- A chain with enough sound clusters, whose sectors can be read. -/
structure Readable (dev : Device) (v : Volume) (start bytes : ℕ) : Prop where
  clusters : ∀ i < clustersOf v bytes, Sound dev v start i
  sectors : ∀ s < sectorsOf bytes, (chainSector dev v start s).isSome

/-- The memory at `out` after some writes. -/
def store (writes : List (ℕ × UInt8)) (out : ℕ → UInt8) : ℕ → UInt8 :=
  writes.foldl (fun out w => Function.update out w.1 w.2) out

theorem lt_clustersOf (hpos : 0 < v.sectorsPerCluster) :
    i < clustersOf v bytes ↔ 512 * (i * v.sectorsPerCluster) < bytes := by
  have hmul : 512 * (i * v.sectorsPerCluster) = i * (512 * v.sectorsPerCluster) := by
    rw [Nat.mul_left_comm]
  rw [clustersOf, hmul, Nat.lt_div_iff_mul_lt (by omega)]
  omega

theorem chainData_succ (hsector : chainSector dev v start n = some buffer) :
    chainData dev v start (n + 1) = chainData dev v start n ++ buffer.bytes := by
  rw [chainData, List.range_succ, List.flatMap_append, List.flatMap_singleton, hsector,
    Option.map_some, Option.getD_some, chainData]

theorem store_append (writes writes' : List (ℕ × UInt8)) (out : ℕ → UInt8) :
    store (writes ++ writes') out = store writes' (store writes out) := List.foldl_append

/-- Writes in order fill the memory with their bytes. -/
theorem store_range (out : ℕ → UInt8) {writes : List (ℕ × UInt8)}
    (hplaces : writes.map Prod.fst = List.range m) :
    (List.range m).map (store writes out) = writes.map Prod.snd := by
  induction m generalizing writes with
  | zero => rw [List.map_eq_nil_iff.1 hplaces]; rfl
  | succ m ih =>
    rw [List.range_succ] at hplaces ⊢
    obtain ⟨before, last, rfl, hbefore, hlast⟩ := List.map_eq_append_iff.1 hplaces
    obtain ⟨w, rfl, hw⟩ := List.map_eq_singleton_iff.1 hlast
    have hsame : ∀ k < m, store (before ++ [w]) out k = store before out k := fun k hk => by
      rw [store_append, store, List.foldl_cons, List.foldl_nil,
        Function.update_of_ne (by omega)]
    have hnew : store (before ++ [w]) out m = w.2 := by
      rw [store_append, store, List.foldl_cons, List.foldl_nil, ← hw, Function.update_self]
    rw [List.map_append, List.map_append, List.map_singleton, List.map_singleton, hnew,
      ← ih hbefore]
    exact congrArg (· ++ [w.2]) (List.map_congr_left fun k hk => hsame k (List.mem_range.1 hk))

/-! ## The loops -/

/-- The first `n` sectors of the chain are read, and `m` of their bytes are written in order. -/
structure Written (dev : Device) (v : Volume) (start n m : ℕ) (f : FileReport) : Prop where
  bytes : f.bytes = m
  sectors : ∀ s < n, (chainSector dev v start s).isSome
  length : (chainData dev v start n).length = 512 * n
  places : f.writes.map Prod.fst = List.range m
  values : f.writes.map Prod.snd = (chainData dev v start n).take m

/-- One more sector, of which only so many bytes are taken. -/
theorem Written.succ {count : ℕ} (h : Written dev v start n (512 * n) f)
    (hsector : chainSector dev v start n = some buffer) (hcount : count ≤ 512) {g : FileReport}
    (hbytes : g.bytes = f.bytes + count)
    (hwrites : g.writes = f.writes ++
      (List.range count).map fun i => (f.bytes + i, buffer.bytes.getD i 0)) :
    Written dev v start (n + 1) (512 * n + count) g := by
  have hdata := chainData_succ hsector
  have hlen := buffer.size
  have hf := h.bytes
  refine ⟨by rw [hbytes, hf], fun s hs => ?_, ?_, ?_, ?_⟩
  · rcases Nat.lt_succ_iff_lt_or_eq.1 hs with hs | rfl
    · exact h.sectors s hs
    · rw [hsector]
      rfl
  · rw [hdata, List.length_append, h.length, hlen]
    omega
  · rw [hwrites, List.map_append, h.places, List.map_map, List.range_add, hf]
    rfl
  · have hwhole : (chainData dev v start n).take (512 * n) = chainData dev v start n :=
      List.take_of_length_le (Nat.le_of_eq h.length)
    have hpart : (List.range count).map (fun i => buffer.bytes.getD i 0) =
        buffer.bytes.take count := by
      refine List.ext_getElem (by simp; omega) fun i hi hi' => ?_
      have hlt : i < buffer.bytes.length := by
        rw [List.length_map, List.length_range] at hi
        omega
      rw [List.getElem_map, List.getElem_range, List.getElem_take, List.getD_eq_getElem?_getD,
        List.getElem?_eq_getElem hlt, Option.getD_some]
    rw [hwrites, List.map_append, h.values, hwhole, hdata, List.map_map, List.take_append, h.length,
      Nat.add_sub_cancel_left, List.take_of_length_le (by rw [h.length]; omega), ← hpart]
    rfl

/-- The reader stopped before the end of the file. -/
structure Short (dev : Device) (v : Volume) (start bytes : ℕ) (f : FileReport) : Prop where
  result : f.result ≠ .readPass
  unreadable : ¬Readable dev v start bytes
  written : ∃ n m, m ≤ bytes ∧ Written dev v start n m f

/-- The reader got the whole file. -/
structure Whole (dev : Device) (v : Volume) (start bytes : ℕ) (f : FileReport) : Prop where
  result : f.result = .readPass
  written : Written dev v start (sectorsOf bytes) bytes f

/-- The sectors of a cluster, up to the end of the file. -/
theorem fileSectors_outcome (hv : VolumeOk v partitionSectors lastLba) (hlast : lastLba < 2 ^ 32)
    (hin : InRange v cluster) (hc : hop dev v start i = some cluster)
    (hleft : sector + left = v.sectorsPerCluster)
    (hroom : 512 * (i * v.sectorsPerCluster + sector) < bytes)
    (h : Written dev v start (i * v.sectorsPerCluster + sector)
      (512 * (i * v.sectorsPerCluster + sector)) f) :
    (fileSectors dev bytes (clusterStart v cluster) left sector f).Ends
      (fun g => Short dev v start bytes g ∨ Whole dev v start bytes g ∧
        bytes ≤ 512 * ((i + 1) * v.sectorsPerCluster))
      fun g => 512 * ((i + 1) * v.sectorsPerCluster) < bytes ∧ g.seen = f.seen ∧
        Written dev v start ((i + 1) * v.sectorsPerCluster)
          (512 * ((i + 1) * v.sectorsPerCluster)) g := by
  have hnext : (i + 1) * v.sectorsPerCluster = i * v.sectorsPerCluster + v.sectorsPerCluster :=
    Nat.succ_mul _ _
  induction left generalizing sector f with
  | zero =>
    rw [Nat.add_zero] at hleft
    rw [hleft, ← hnext] at hroom h
    exact ⟨hroom, rfl, h⟩
  | succ left ih =>
    have hlt : sector < v.sectorsPerCluster := by omega
    have hsector := chainSector_eq dev hc hlt
    generalize i * v.sectorsPerCluster = base at hroom h hnext hsector ih ⊢
    have hf := h.bytes
    have hin' : base + sector < sectorsOf bytes := by
      rw [sectorsOf]
      omega
    rw [fileSectors, (hv.sectorLba hlast hin hlt).1]
    obtain ⟨count, hcount, h512, hcases⟩ : ∃ count,
        (if bytes - f.bytes < 512 then bytes - f.bytes else 512) = count ∧ count ≤ 512 ∧
        (512 * (base + sector) + count = bytes ∨
          count = 512 ∧ 512 * (base + sector + 1) < bytes) := by
      refine ⟨_, rfl, ?_⟩
      rw [hf]
      split <;> omega
    rw [hcount]
    dsimp only
    cases hread : dev (clusterStart v cluster + sector) with
    | none =>
      rw [hread] at hsector
      refine .inl ⟨fun h0 => (by cases h0), fun hreadable => ?_, _, _, Nat.le_of_lt hroom, h.bytes,
        h.sectors, h.length, h.places, h.values⟩
      have hsome := hreadable.sectors (base + sector) hin'
      rw [hsector] at hsome
      exact absurd hsome Bool.false_ne_true
    | some buffer =>
      rw [hread] at hsector
      have hwritten := fun g => h.succ (g := g) hsector h512
      dsimp only
      rw [hf] at hwritten ⊢
      rcases hcases with hend | ⟨rfl, hmore⟩
      · rw [if_pos hend]
        have hsucc : base + sector + 1 = sectorsOf bytes := by
          rw [sectorsOf]
          omega
        rw [hend, hsucc] at hwritten
        exact .inr ⟨⟨rfl, hwritten _ hend rfl⟩, by omega⟩
      · have hnot : ¬512 * (base + sector) + 512 = bytes := by omega
        rw [if_neg hnot]
        exact ih (by omega) hmore (hwritten _ rfl rfl)

/-- The clusters of a chain, up to the end of the file: four are enough. -/
theorem fileClusters_outcome (hv : VolumeOk v partitionSectors lastLba) (hlast : lastLba < 2 ^ 32)
    (hmax : bytes ≤ 2048) (hseen : Seen dev v start i f.seen)
    (hc : hop dev v start i = some cluster) (hleft : i + left = 4)
    (hsound : ∀ j < i, Sound dev v start j) (hroom : 512 * (i * v.sectorsPerCluster) < bytes)
    (h : Written dev v start (i * v.sectorsPerCluster) (512 * (i * v.sectorsPerCluster)) f) :
    Short dev v start bytes (fileClusters dev v bytes left cluster f) ∨
      Whole dev v start bytes (fileClusters dev v bytes left cluster f) ∧
        Readable dev v start bytes := by
  have hpos : 0 < v.sectorsPerCluster := hv.cluster.1
  induction left generalizing cluster i f with
  | zero =>
    have hmul : 4 * 1 ≤ i * v.sectorsPerCluster := Nat.mul_le_mul (by omega) hpos
    omega
  | succ left ih =>
    have hi : i < clustersOf v bytes := (lt_clustersOf hpos).2 hroom
    rw [fileClusters]
    rcases visit_cases hv hlast hseen hc with ⟨next, hnow, hin, hlink, hgood, hvisit⟩ |
      ⟨hnot, hvisit | ⟨hin, hvisit | hvisit⟩⟩
    · have hsectors := fileSectors_outcome hv hlast hin hc (Nat.zero_add _) hroom
        (f := { f with
          result := .chainBad
          seen := f.seen ++ [cluster]
          lbas := f.lbas ++ [fatLba v cluster]
          clusters := f.clusters + 1 }) ⟨h.bytes, h.sectors, h.length, h.places, h.values⟩
      have hsound' : ∀ j < i + 1, Sound dev v start j := fun j hj => by
        rcases Nat.lt_succ_iff_lt_or_eq.1 hj with hj | rfl
        · exact hsound j hj
        · exact hnow
      rw [hvisit]
      dsimp only
      cases hscan : fileSectors dev bytes (clusterStart v cluster) v.sectorsPerCluster 0 { f with
          result := .chainBad
          seen := f.seen ++ [cluster]
          lbas := f.lbas ++ [fatLba v cluster]
          clusters := f.clusters + 1 } with
      | stop g =>
        rw [hscan] at hsectors
        rcases hsectors with hshort | ⟨hwhole, hstop⟩
        · exact .inl hshort
        · refine .inr ⟨hwhole, fun j hj => hsound' j ?_, hwhole.written.sectors⟩
          rw [lt_clustersOf hpos] at hj
          exact Nat.lt_of_mul_lt_mul_right (a := v.sectorsPerCluster) (by omega)
      | more g =>
        rw [hscan] at hsectors
        obtain ⟨hroom', hseen', hwritten⟩ := hsectors
        dsimp only
        split
        · next hend =>
          -- the chain ends before the file
          refine .inl ⟨fun h0 => (by cases h0), fun hreadable => ?_, _, _, Nat.le_of_lt hroom',
            hwritten.bytes, hwritten.sectors, hwritten.length, hwritten.places, hwritten.values⟩
          obtain ⟨c, -, hc', -⟩ := hreadable.clusters (i + 1) ((lt_clustersOf hpos).2 hroom')
          rw [LastAt.hop_succ ⟨cluster, next, hc, hlink, hend⟩ hv.links.1] at hc'
          cases hc'
        · next hend =>
          refine ih ?_ (hop_succ hc hlink hgood hend) (by omega) hsound' hroom' hwritten
          rw [hseen']
          exact hseen.succ hc
    all_goals
      rw [hvisit]
      exact .inl ⟨fun h0 => (by cases h0), fun hreadable => hnot (hreadable.clusters i hi), _, _,
        Nat.le_of_lt hroom, h.bytes, h.sectors, h.length, h.places, h.values⟩

/-! ## The reader -/

/-- What the reader can do with an entry. -/
def CanRead (dev : Device) (v : Volume) (file : Entry) (capacity : ℕ) : Prop :=
  file.attributes &&& 0xd8 = 0 ∧ file.bytes ≤ min capacity 2048 ∧
    (file.bytes ≠ 0 → Readable dev v file.cluster file.bytes)

/-- The reader of an accepted volume, in one statement. -/
theorem pi4Fat32ReadFile_cases (hv : VolumeOk v partitionSectors lastLba) (hlast : lastLba < 2 ^ 32)
    (file : Entry) (dev : Device) (capacity : ℕ) :
    ((pi4Fat32ReadFile v file dev capacity).result ≠ .readPass ∧ ¬CanRead dev v file capacity ∧
      ∃ n m, m ≤ file.bytes ∧
        Written dev v file.cluster n m (pi4Fat32ReadFile v file dev capacity)) ∨
    Whole dev v file.cluster file.bytes (pi4Fat32ReadFile v file dev capacity) ∧
      CanRead dev v file capacity := by
  have hzero : ∀ result, Written dev v file.cluster 0 0 { result := result } := fun result =>
    ⟨rfl, fun s hs => absurd hs (Nat.not_lt_zero s), rfl, rfl, rfl⟩
  obtain ⟨hlow, hhigh⟩ := hv.cluster
  rw [pi4Fat32ReadFile, CanRead]
  by_cases hregular : file.attributes &&& 0xd8 ≠ 0
  · rw [if_pos (.inl hregular)]
    exact .inl ⟨fun h0 => (by cases h0), fun hcan => hregular hcan.1, 0, 0, Nat.zero_le _, hzero _⟩
  have hsizes : ¬(file.attributes &&& 0xd8 ≠ 0 ∨ v.sectorsPerCluster = 0 ∨
      v.sectorsPerCluster > 128) := by omega
  rw [if_neg hsizes]
  by_cases hlarge : file.bytes > capacity ∨ file.bytes > 2048
  · rw [if_pos hlarge]
    exact .inl ⟨fun h0 => (by cases h0), fun hcan => by omega, 0, 0, Nat.zero_le _, hzero _⟩
  rw [if_neg hlarge]
  have hfits : file.bytes ≤ min capacity 2048 := by omega
  by_cases hempty : file.bytes = 0
  · rw [if_pos hempty, hempty]
    exact .inr ⟨⟨rfl, hzero _⟩, not_not.1 hregular, Nat.zero_le _, fun h0 => absurd rfl h0⟩
  · rw [if_neg hempty]
    have hstart : 512 * (0 * v.sectorsPerCluster) < file.bytes := by omega
    have hnothing : Written dev v file.cluster (0 * v.sectorsPerCluster)
        (512 * (0 * v.sectorsPerCluster)) {} := by
      rw [Nat.zero_mul]
      exact hzero _
    rcases fileClusters_outcome hv hlast (by omega) (seen_zero dev v file.cluster) rfl
      (Nat.zero_add 4) (fun j hj => absurd hj (Nat.not_lt_zero j)) hstart hnothing
      with hshort | ⟨hwhole, hreadable⟩
    · exact .inl ⟨hshort.result, fun hcan => hshort.unreadable (hcan.2.2 hempty), hshort.written⟩
    · exact .inr ⟨hwhole, not_not.1 hregular, hfits, fun _ => hreadable⟩

/-- **A file read is exact**: it passes exactly for the regular files that fit and whose chain has
enough sound clusters and readable sectors, and then gives their first bytes; no byte is written
behind the declared size. -/
theorem fat_file_read {b : Sector} {first : ℕ}
    (hbpb : pi4Fat32Bpb b first partitionSectors lastLba = some v) (hlast : lastLba < 2 ^ 32)
    (file : Entry) (dev : Device) (capacity : ℕ) :
    let f := pi4Fat32ReadFile v file dev capacity
    (f.result = .readPass ↔ file.attributes &&& 0xd8 = 0 ∧ file.bytes ≤ min capacity 2048 ∧
      (file.bytes ≠ 0 → Readable dev v file.cluster file.bytes)) ∧
    (f.result = .readPass → ∀ out, (List.range file.bytes).map (store f.writes out) =
      (chainData dev v file.cluster (sectorsOf file.bytes)).take file.bytes) ∧
    ∀ w ∈ f.writes, w.1 < file.bytes := by
  intro f
  obtain ⟨-, hv⟩ := pi4Fat32Bpb_ok hbpb hlast
  have hplaces : ∀ {n m}, m ≤ file.bytes → Written dev v file.cluster n m f →
      ∀ w ∈ f.writes, w.1 < file.bytes := fun hle h w hw => by
    have hmem := List.mem_map_of_mem (f := Prod.fst) hw
    rw [h.places, List.mem_range] at hmem
    exact Nat.lt_of_lt_of_le hmem hle
  rcases pi4Fat32ReadFile_cases hv hlast file dev capacity with
    ⟨hresult, hnot, n, m, hle, hwritten⟩ | ⟨hwhole, hcan⟩
  · exact ⟨⟨fun hpass => absurd hpass hresult, fun hcan => absurd hcan hnot⟩,
      fun hpass => absurd hpass hresult, hplaces hle hwritten⟩
  · refine ⟨⟨fun _ => hcan, fun _ => hwhole.result⟩, fun _ out => ?_,
      hplaces (Nat.le_refl _) hwhole.written⟩
    rw [store_range out hwhole.written.places]
    exact hwhole.written.values

/-! ## A volume -/

/-- The boot sector of a volume of 70000 sectors with one FAT of 600 sectors. -/
def smallBoot : Sector where
  bytes := [0xeb, 0x58, 0x90] ++ List.replicate 8 0 ++ [0x00, 0x02, 0x01, 0x20, 0x00, 0x01] ++
    List.replicate 15 0 ++ [0x70, 0x11, 0x01, 0x00, 0x58, 0x02, 0x00, 0x00] ++ List.replicate 4 0 ++
    [0x02] ++ List.replicate 465 0 ++ [0x55, 0xaa]
  size := by decide +kernel

def smallVolume : Volume where
  first := 0
  sectors := 70000
  fatFirst := 32
  fatSectors := 600
  dataFirst := 632
  sectorsPerCluster := 1
  clusters := 69368
  rootCluster := 2

theorem smallBoot_bpb : pi4Fat32Bpb smallBoot 0 70000 69999 = some smallVolume := by
  decide +kernel

/-- A file of three bytes on a device that answers no read. -/
theorem fat_file_read_small :
    let f := pi4Fat32ReadFile smallVolume ⟨[65], 0x20, 3, 3⟩ (fun _ => none) 2048
    (f.result = .readPass ↔ (0x20 &&& 0xd8 = 0 ∧ 3 ≤ min 2048 2048 ∧
      (3 ≠ 0 → Readable (fun _ => none) smallVolume 3 3))) ∧
    (f.result = .readPass → ∀ out, (List.range 3).map (store f.writes out) =
      (chainData (fun _ => none) smallVolume 3 (sectorsOf 3)).take 3) ∧
    ∀ w ∈ f.writes, w.1 < 3 :=
  fat_file_read smallBoot_bpb (by decide) ⟨[65], 0x20, 3, 3⟩ (fun _ => none) 2048

end ZealBringup.Fat
