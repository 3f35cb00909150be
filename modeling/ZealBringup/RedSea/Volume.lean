import ZealBringup.Lib.Extents
import ZealBringup.RedSea.Host

/-!
# RedSea volumes

A volume is a disk whose boot block names a root directory, together with what makes
the directory and the bitmap fit: the catalog of the directory is safe for the marks
of the map.  What a reader sees of a volume is `fileOf`, the name and the bytes of
each slot.

* `rsFindSlot_some_iff`, `rsFindSlot_none_iff` — the search of the directory.
* `Volume.load` — `rs_load_file` returns the bytes of the file it finds.
-/

set_option maxRecDepth 10000

namespace ZealBringup.RedSea

open Store CrashDisk Extents

/-! ## Slots as a catalog -/

/-- The clusters of a slot; an empty file has one. -/
def slotClusters (dir : Sector) (i : Fin 8) : ℕ := max 1 (clusters (slotLen dir i))

/-- The directory as a catalog of extents. -/
def catalogOf (dir : Sector) : Catalog (Fin 8) (List UInt8) := fun i =>
  if slotLive dir i then
    some ⟨foldName (slotName dir i), Set.Ico (slotBlk dir i) (slotBlk dir i + slotClusters dir i)⟩
  else none

/-- The marks of the bitmap. -/
def marks (map : Sector) : Set ℕ := {b | mapBit map b = true}

/-- Boot block, bitmap and root directory. -/
def reserved (root : ℕ) : Set ℕ := {0, 1, root}

/-- A consistent volume. -/
structure Volume (capacity : ℕ) (d : Disk Sector) (root sects : ℕ) : Prop where
  boot : bootRoot (d 0) = .ok (root, sects)
  size : 4 ≤ sects ∧ sects ≤ 128
  fits : sects ≤ capacity ∧ root < capacity
  rootApart : root ≠ 0 ∧ root ≠ 1
  named : ∀ i, slotLive (d root) i = true → (slotName (d root) i).length ≤ 37
  extents : ∀ i, slotLive (d root) i = true →
    3 ≤ slotBlk (d root) i ∧ slotBlk (d root) i + slotClusters (d root) i ≤ sects
  lengths : ∀ i, slotLive (d root) i = true → slotLen (d root) i + 511 < 2 ^ 64
  safe : Safe (reserved root) (catalogOf (d root)) (marks (d 1))

/-- The books of a volume: all of it but what its files own. -/
structure Books (capacity : ℕ) (d : Disk Sector) (root sects : ℕ) : Prop where
  boot : bootRoot (d 0) = .ok (root, sects)
  size : 4 ≤ sects ∧ sects ≤ 128
  fits : sects ≤ capacity ∧ root < capacity
  rootApart : root ≠ 0 ∧ root ≠ 1
  named : ∀ i, slotLive (d root) i = true → (slotName (d root) i).length ≤ 37
  extents : ∀ i, slotLive (d root) i = true →
    3 ≤ slotBlk (d root) i ∧ slotBlk (d root) i + slotClusters (d root) i ≤ sects
  lengths : ∀ i, slotLive (d root) i = true → slotLen (d root) i + 511 < 2 ^ 64

theorem Volume.books {capacity : ℕ} {d : Disk Sector} {root sects : ℕ}
    (h : Volume capacity d root sects) : Books capacity d root sects :=
  ⟨h.boot, h.size, h.fits, h.rootApart, h.named, h.extents, h.lengths⟩

variable {dir : Sector} {i : Fin 8}

theorem catalogOf_some {e : Entry (List UInt8)} (h : catalogOf dir i = some e) :
    slotLive dir i = true ∧ e = ⟨foldName (slotName dir i),
      Set.Ico (slotBlk dir i) (slotBlk dir i + slotClusters dir i)⟩ := by
  unfold catalogOf at h
  split at h
  · exact ⟨‹_›, (Option.some.inj h).symm⟩
  · cases h

theorem catalogOf_live (h : slotLive dir i = true) :
    catalogOf dir i = some ⟨foldName (slotName dir i),
      Set.Ico (slotBlk dir i) (slotBlk dir i + slotClusters dir i)⟩ :=
  if_pos h

theorem clusters_eq {len : ℕ} (h : len + 511 < 2 ^ 64) : clusters len = (len + 511) / 512 := by
  rw [clusters, Nat.mod_eq_of_lt h]

variable {n : ℕ}

theorem mem_marks_setRun {map : Sector} {first c : ℕ} (h : first + n ≤ 4096) :
    c ∈ marks (markRun map first n) ↔ first ≤ c ∧ c < first + n ∨ c ∈ marks map := by
  simp only [marks, Set.mem_ofPred_eq, mapBit_markRun map h, Bool.or_eq_true, decide_eq_true_eq]

theorem mem_marks_freeRun {map : Sector} {first c : ℕ} (h : first + n ≤ 4096) :
    c ∈ marks (freeRun map first n) ↔ ¬(first ≤ c ∧ c < first + n) ∧ c ∈ marks map := by
  simp only [marks, Set.mem_ofPred_eq, mapBit_freeRun map h, Bool.and_eq_true, decide_eq_true_eq]

/-! ## The search of the directory -/

variable {name : List UInt8}

theorem rsFindSlot_some (h : rsFindSlot dir name = some i) :
    slotLive dir i = true ∧ foldName (slotName dir i) = foldName name := by
  have hi := List.find?_some h
  rw [Bool.and_eq_true, strIeq_iff] at hi
  exact hi

theorem rsFindSlot_none_iff :
    rsFindSlot dir name = none ↔
      ∀ i, slotLive dir i = true → foldName (slotName dir i) ≠ foldName name := by
  rw [rsFindSlot, List.find?_eq_none]
  constructor
  · intro h i hlive hname
    refine h i (List.mem_finRange i) ?_
    rw [Bool.and_eq_true, strIeq_iff]
    exact ⟨hlive, hname⟩
  · intro h i _ hi
    rw [Bool.and_eq_true, strIeq_iff] at hi
    exact h i hi.1 hi.2

/-- In a safe catalog the search finds the one slot with that name. -/
theorem rsFindSlot_some_iff {res marked : Set ℕ} (hsafe : Safe res (catalogOf dir) marked) :
    rsFindSlot dir name = some i ↔
      slotLive dir i = true ∧ foldName (slotName dir i) = foldName name := by
  refine ⟨rsFindSlot_some, fun ⟨hlive, hname⟩ => ?_⟩
  cases hfind : rsFindSlot dir name with
  | none => exact absurd hname (rsFindSlot_none_iff.1 hfind i hlive)
  | some j =>
    obtain ⟨hlive', hname'⟩ := rsFindSlot_some hfind
    have hkeys := hsafe.keys (catalogOf_live hlive') (catalogOf_live hlive) (hname'.trans hname.symm)
    rw [hkeys]

theorem rsFreeSlot_some (h : rsFreeSlot dir = some i) :
    slotLive dir i = false := by
  have hi := List.find?_some h
  simpa using hi

/-! ## What a reader sees -/

/-- The bytes of a file. -/
def fileBytes (d : Disk Sector) (blk len : ℕ) : List UInt8 :=
  (List.range len).map fun k => (d (blk + k / 512)).get (k % 512)

/-- The lower-case name and the bytes of a slot. -/
def fileOf (d : Disk Sector) (root : ℕ) (i : Fin 8) : Option (List UInt8 × List UInt8) :=
  if slotLive (d root) i then
    some (foldName (slotName (d root) i), fileBytes d (slotBlk (d root) i) (slotLen (d root) i))
  else none

/-- What `rs_load_file` makes of the files. -/
def loadOf (files : Fin 8 → Option (List UInt8 × List UInt8)) (key : List UInt8) (cap : ℕ) :
    Except ℤ (List UInt8) :=
  if cap < 2 then .error (-1)
  else
    match (List.finRange 8).findSome? fun i => (files i).filter fun f => f.1 == key with
    | none => .error (-6)
    | some f => if f.2.length = 0 ∨ f.2.length ≥ cap then .error (-6) else .ok f.2

theorem length_fileBytes (d : Disk Sector) (blk len : ℕ) : (fileBytes d blk len).length = len := by
  rw [fileBytes, List.length_map, List.length_range]

variable {blk : ℕ}

theorem fileBytes_congr {d d' : Disk Sector} {len : ℕ}
    (h : ∀ a, blk ≤ a → a < blk + (len + 511) / 512 → d a = d' a) :
    fileBytes d blk len = fileBytes d' blk len := by
  unfold fileBytes
  refine List.map_congr_left fun k hk => ?_
  rw [List.mem_range] at hk
  rw [h _ (by omega) (by omega)]

theorem blkread_of_lt {dev : Dev} (h : blk < dev.capacity) :
    dev.blkread blk = some (dev.disk blk) := by
  rw [Dev.blkread, if_neg]
  have hmod := Nat.mod_le (blk + 1) (2 ^ 64)
  omega

/-- Reading block by block gives the bytes of the file. -/
theorem rsLoadBlocks_eq {dev : Dev} {rest : ℕ} (hn : n = (rest + 511) / 512)
    (hfit : blk + n ≤ dev.capacity) :
    rsLoadBlocks dev blk rest n = .ok (fileBytes dev.disk blk rest) := by
  induction n generalizing blk rest with
  | zero =>
    obtain rfl : rest = 0 := by omega
    rfl
  | succ n ih =>
    rw [rsLoadBlocks, blkread_of_lt (by omega)]
    dsimp only
    rw [ih (by omega) (by omega)]
    dsimp only
    congr 1
    refine List.ext_getElem? fun k => ?_
    rw [fileBytes, fileBytes, Sector.slice, List.getElem?_append, List.length_map, List.length_range,
      List.getElem?_map, List.getElem?_map, List.getElem?_map]
    by_cases hk : k < min rest 512
    · rw [if_pos hk, List.getElem?_range hk, List.getElem?_range (by omega), Option.map_some,
        Option.map_some, Nat.zero_add, Nat.div_eq_of_lt (by omega), Nat.mod_eq_of_lt (by omega),
        Nat.add_zero]
    · rw [if_neg hk]
      by_cases hrest : k < rest
      · have hmin : min rest 512 = 512 := by omega
        rw [hmin, List.getElem?_range (by omega), List.getElem?_range hrest, Option.map_some,
          Option.map_some]
        have hdiv : blk + 1 + (k - 512) / 512 = blk + k / 512 := by omega
        have hmod : (k - 512) % 512 = k % 512 := by omega
        rw [hdiv, hmod]
      · rw [List.getElem?_eq_none (by rw [List.length_range]; omega),
          List.getElem?_eq_none (by rw [List.length_range]; omega)]
        rfl

section Volume

variable {capacity : ℕ} {d : Disk Sector} {root sects : ℕ}

variable {dev : Dev}

theorem Books.readRoot (h : Books dev.capacity dev.disk root sects) :
    rsReadRoot dev = .ok ⟨dev.disk root, root, sects⟩ := by
  obtain ⟨hsects, hroot⟩ := h.fits
  have hsize := h.size
  rw [rsReadRoot, blkread_of_lt (by omega)]
  dsimp only
  rw [h.boot]
  dsimp only
  rw [blkread_of_lt hroot]

/-- The run of a file lies in its clusters. -/
theorem Volume.run_le (h : Volume capacity d root sects) {i : Fin 8}
    (hlive : slotLive (d root) i = true) :
    (slotLen (d root) i + 511) / 512 ≤ slotClusters (d root) i := by
  rw [slotClusters, clusters_eq (h.lengths i hlive)]
  exact le_max_right _ _

theorem findSome?_of_find? {α β : Type*} {l : List α} {p : α → Bool} {f : α → Option β}
    (h : ∀ a, (f a).isSome = p a) : l.findSome? f = (l.find? p).bind f := by
  induction l with
  | nil => rfl
  | cons a l ih =>
    rw [List.findSome?_cons, List.find?_cons, ← h a]
    cases hf : f a with
    | none => exact ih
    | some b => exact hf.symm

/-- **Loading.**  `rs_load_file` depends on the files only. -/
theorem Volume.load (h : Volume dev.capacity dev.disk root sects) (name : CStr) (cap : ℕ) :
    rsLoadFile dev name cap = loadOf (fileOf dev.disk root) (foldName name.bytes) cap := by
  unfold rsLoadFile loadOf
  by_cases hcap : cap < 2
  · rw [if_pos hcap, if_pos hcap]
  rw [if_neg hcap, if_neg hcap, h.books.readRoot]
  have hfind : ((List.finRange 8).findSome? fun i =>
      (fileOf dev.disk root i).filter fun f => f.1 == foldName name.bytes) =
      (rsFindSlot (dev.disk root) name.bytes).bind fun i =>
        (fileOf dev.disk root i).filter fun f => f.1 == foldName name.bytes := by
    refine findSome?_of_find? fun i => ?_
    rw [Bool.eq_iff_iff, Bool.and_eq_true, strIeq_iff, fileOf]
    split
    · rename_i hlive
      simp [Option.filter, hlive]
    · rename_i hlive
      simp [hlive]
  dsimp only
  rw [hfind]
  cases hslot : rsFindSlot (dev.disk root) name.bytes with
  | none => rfl
  | some i =>
    obtain ⟨hlive, hname⟩ := rsFindSlot_some hslot
    obtain ⟨hblk, hext⟩ := h.extents i hlive
    have hrun := h.run_le hlive
    have hfits := h.fits
    have hfile : (fileOf dev.disk root i).filter (fun f => f.1 == foldName name.bytes) =
        some (foldName (slotName (dev.disk root) i),
          fileBytes dev.disk (slotBlk (dev.disk root) i) (slotLen (dev.disk root) i)) := by
      rw [fileOf, if_pos hlive, Option.filter_some, if_pos]
      exact beq_iff_eq.2 hname
    rw [Option.bind_some, hfile]
    simp only [length_fileBytes]
    have hrange : ¬(slotBlk (dev.disk root) i < 3) ∧ ¬(slotBlk (dev.disk root) i > sects) ∧
        ¬(clusters (slotLen (dev.disk root) i) > sects - slotBlk (dev.disk root) i) := by
      rw [clusters_eq (h.lengths i hlive)]
      omega
    obtain ⟨h1, h2, h3⟩ := hrange
    simp only [h1, h2, h3, false_or, or_false]
    split
    · rfl
    · exact rsLoadBlocks_eq rfl (by omega)

/-- Volumes with the same files load the same. -/
theorem load_congr {dev' : Dev} {root' sects' : ℕ} (h : Volume dev.capacity dev.disk root sects)
    (h' : Volume dev'.capacity dev'.disk root' sects')
    (hfiles : ∀ i, fileOf dev'.disk root' i = fileOf dev.disk root i) (name : CStr) (cap : ℕ) :
    rsLoadFile dev' name cap = rsLoadFile dev name cap := by
  rw [h.load, h'.load, funext hfiles]

end Volume

end ZealBringup.RedSea
