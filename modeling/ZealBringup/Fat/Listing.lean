import ZealBringup.Fat.Bounds

/-!
# The listing of the root directory

What the probe lists, against the slots of the root directory's chain.

* `rootSlot` — the slots of the chain, counted from its start.
* `Clear`, `RootEnd` — slots without an end marker, and where the directory ends.
* `Stopped`, `Scanned` — what the loops have made of the slots so far.
* `fat_root_listing` — a complete listing is that of the directory, a bounded one a part of it,
  and no chain with a fault gives a complete one.
-/

namespace ZealBringup.Fat

variable {dev : Device} {v : Volume} {buffer : Sector} {r : Report} {d : List UInt8}
  {left k sector cluster i j m n q t partitionSectors lastLba : ℕ}

/-! ## The directory -/

/-- A slot of the root directory, with all that is behind it in its sector. -/
def rootSlot (dev : Device) (v : Volume) (t : ℕ) : Option (List UInt8) :=
  (chainSector dev v v.rootCluster (t / 16)).map fun b => b.bytes.drop (32 * (t % 16))

/-- The first slots. -/
def rootSlots (dev : Device) (v : Volume) (n : ℕ) : List (List UInt8) :=
  (List.range n).filterMap (rootSlot dev v)

/-- An end marker. -/
def MarkerAt (dev : Device) (v : Volume) (t : ℕ) : Prop :=
  ∃ d, rootSlot dev v t = some d ∧ byteAt d 0 = 0

/-- The first slots are there, without an end marker. -/
def Clear (dev : Device) (v : Volume) (n : ℕ) : Prop :=
  ∀ t < n, ∃ d, rootSlot dev v t = some d ∧ byteAt d 0 ≠ 0

/-- The slots of a cluster. -/
def slotsPerCluster (v : Volume) : ℕ := 16 * v.sectorsPerCluster

/-- The end of the directory: its first end marker, or the end of its chain. -/
def RootEnd (dev : Device) (v : Volume) (n : ℕ) : Prop :=
  Clear dev v n ∧ (MarkerAt dev v n ∨
    ∃ i, n = (i + 1) * slotsPerCluster v ∧ LastAt dev v v.rootCluster i)

/-- A cluster of the root's chain that is not sound: met before, out of range, without a link that
can be read, or with a link that is free, bad or out of range. -/
def FaultAt (dev : Device) (v : Volume) (i : ℕ) : Prop :=
  (hop dev v v.rootCluster i).isSome ∧ ¬Sound dev v v.rootCluster i

theorem rootSlot_eq (hsector : chainSector dev v v.rootCluster q = some buffer) (hk : k < 16) :
    rootSlot dev v (16 * q + k) = some (buffer.bytes.drop (32 * k)) := by
  rw [rootSlot, Nat.mul_add_div (by decide), Nat.div_eq_of_lt hk, Nat.add_zero, hsector,
    Nat.mul_add_mod, Nat.mod_eq_of_lt hk, Option.map_some]

theorem rootSlots_succ (hslot : rootSlot dev v n = some d) :
    rootSlots dev v (n + 1) = rootSlots dev v n ++ [d] := by
  rw [rootSlots, List.range_succ, List.filterMap_append, rootSlots]
  exact congrArg _ (by rw [List.filterMap_cons_some hslot]; rfl)

theorem Clear.succ (h : Clear dev v n) (hslot : rootSlot dev v n = some d)
    (hlive : byteAt d 0 ≠ 0) : Clear dev v (n + 1) := fun t ht => by
  rcases Nat.lt_succ_iff_lt_or_eq.1 ht with ht | rfl
  · exact h t ht
  · exact ⟨d, hslot, hlive⟩

/-- Slots without a marker are not behind one. -/
theorem Clear.le_marker (h : Clear dev v n) (hmarker : MarkerAt dev v t) : n ≤ t := by
  refine Nat.le_of_not_lt fun ht => ?_
  obtain ⟨d, hslot, hzero⟩ := hmarker
  obtain ⟨d', hslot', hlive⟩ := h t ht
  exact hlive (Option.some.inj (hslot.symm.trans hslot') ▸ hzero)

/-- Slots that are there are not behind the end of the chain. -/
theorem Clear.le_last (h : Clear dev v n) (hclusters : v.clusters + 1 < 0x0ffffff0)
    (hpos : 0 < v.sectorsPerCluster) (hlast : LastAt dev v v.rootCluster i) :
    n ≤ (i + 1) * slotsPerCluster v := by
  refine Nat.le_of_not_lt fun ht => ?_
  obtain ⟨d, hslot, -⟩ := h _ ht
  have hdiv : (i + 1) * slotsPerCluster v / 16 / v.sectorsPerCluster = i + 1 := by
    rw [slotsPerCluster, Nat.div_div_eq_div_mul, Nat.mul_div_cancel _ (by omega)]
  rw [rootSlot, chainSector, hdiv, hlast.hop_succ hclusters] at hslot
  cases hslot

/-- A listing of fewer slots is the start of a listing of more. -/
theorem listing_rootSlots_prefix (hle : m ≤ n) :
    listing (rootSlots dev v m) <+: listing (rootSlots dev v n) := by
  obtain ⟨k, rfl⟩ := Nat.exists_eq_add_of_le hle
  rw [rootSlots, rootSlots, List.range_add, List.filterMap_append, listing_append]
  exact List.prefix_append _ _

/-! ## The loops -/

/-- The first slots are listed. -/
structure Scanned (dev : Device) (v : Volume) (n : ℕ) (r : Report) : Prop where
  clear : Clear dev v n
  entry : r.entry = listing (rootSlots dev v n)

/-- An inner loop ended the scan before a slot. -/
structure Stopped (dev : Device) (v : Volume) (m : ℕ) (r : Report) : Prop where
  pass : r.result = .rootPass → ∃ n < m, Scanned dev v n r ∧ MarkerAt dev v n
  bounded : r.result = .rootPartial → ∃ n, Scanned dev v n r

theorem Stopped.other (h : r.result ≠ .rootPass ∧ r.result ≠ .rootPartial) :
    Stopped dev v m r :=
  ⟨fun hpass => absurd hpass h.1, fun hpartial => absurd hpartial h.2⟩

theorem Stopped.mono (h : Stopped dev v m r) (hmn : m ≤ n) : Stopped dev v n r where
  pass := fun hpass => by
    obtain ⟨t, ht, hscanned⟩ := h.pass hpass
    exact ⟨t, Nat.lt_of_lt_of_le ht hmn, hscanned⟩
  bounded := h.bounded

/-- The slots of a sector. -/
theorem rootEntries_scanned (hsector : chainSector dev v v.rootCluster q = some buffer)
    (hleft : k + left = 16) (h : Scanned dev v (16 * q + k) r) :
    (rootEntries v buffer left (32 * k) r).Ends (Stopped dev v (16 * (q + 1)))
      fun r' => Scanned dev v (16 * (q + 1)) r' ∧ r'.seen = r.seen := by
  induction left generalizing k r with
  | zero =>
    rw [Nat.add_zero] at hleft
    rw [hleft] at h
    exact ⟨h, rfl⟩
  | succ left ih =>
    have hslot := rootSlot_eq hsector (show k < 16 by omega)
    have hsize := buffer.size
    have hlen : 32 ≤ (buffer.bytes.drop (32 * k)).length := by
      rw [List.length_drop]
      omega
    have hstop : 16 * q + k < 16 * (q + 1) := by omega
    rw [rootEntries, pi4Fat32DirectoryEntry_eq hlen]
    by_cases hmarker : byteAt (buffer.bytes.drop (32 * k)) 0 = 0
    · rw [if_pos hmarker]
      exact ⟨fun _ => ⟨16 * q + k, hstop, ⟨h.clear, h.entry⟩, _, hslot, hmarker⟩,
        fun h0 => (by cases h0)⟩
    have hclear := h.clear.succ hslot hmarker
    have hslots := rootSlots_succ hslot
    rw [if_neg hmarker]
    by_cases hskip : IsSkipped (buffer.bytes.drop (32 * k))
    · rw [if_pos hskip]
      exact ih (show k + 1 + left = 16 by omega)
        ⟨hclear, by rw [← Nat.add_assoc, hslots, listing_skip hskip, h.entry]⟩
    rw [if_neg hskip]
    by_cases hbad : IsMalformed (buffer.bytes.drop (32 * k)) v
    · rw [if_pos hbad]
      exact .other ⟨fun h0 => (by cases h0), fun h0 => (by cases h0)⟩
    rw [if_neg hbad]
    have hentry : r.entry ++ [encoded (buffer.bytes.drop (32 * k))] =
        listing (rootSlots dev v (16 * q + k + 1)) := by
      rw [hslots, listing_live hskip, h.entry]
    dsimp only
    split
    · exact ⟨fun h0 => (by cases h0), fun _ => ⟨_, hclear, hentry⟩⟩
    · exact ih (show k + 1 + left = 16 by omega) ⟨hclear, hentry⟩

/-- The sectors of a cluster. -/
theorem rootSectors_scanned (hv : VolumeOk v partitionSectors lastLba) (hlast : lastLba < 2 ^ 32)
    (hin : InRange v cluster) (hc : hop dev v v.rootCluster i = some cluster)
    (hleft : sector + left = v.sectorsPerCluster)
    (h : Scanned dev v (16 * (i * v.sectorsPerCluster + sector)) r) :
    (rootSectors dev v (clusterStart v cluster) left sector r).Ends
      (Stopped dev v ((i + 1) * slotsPerCluster v))
      fun r' => Scanned dev v ((i + 1) * slotsPerCluster v) r' ∧ r'.seen = r.seen := by
  have hnext : (i + 1) * slotsPerCluster v =
      16 * (i * v.sectorsPerCluster + v.sectorsPerCluster) := by
    rw [slotsPerCluster, Nat.mul_left_comm, Nat.succ_mul i]
  induction left generalizing sector r with
  | zero =>
    rw [Nat.add_zero] at hleft
    rw [hleft, ← hnext] at h
    exact ⟨h, rfl⟩
  | succ left ih =>
    have hlt : sector < v.sectorsPerCluster := by omega
    have hsector := chainSector_eq dev hc hlt
    rw [rootSectors, (hv.sectorLba hlast hin hlt).1]
    split
    · exact ⟨fun h0 => (by cases h0), fun _ => ⟨_, h.clear, h.entry⟩⟩
    dsimp only
    cases hread : dev (clusterStart v cluster + sector) with
    | none => exact .other ⟨fun h0 => (by cases h0), fun h0 => (by cases h0)⟩
    | some buffer =>
      rw [hread] at hsector
      have hentries := rootEntries_scanned hsector (Nat.zero_add 16)
        (⟨h.clear, h.entry⟩ : Scanned dev v (16 * (i * v.sectorsPerCluster + sector) + 0)
          { r with
            result := .directoryReadBad
            lbas := r.lbas ++ [clusterStart v cluster + sector]
            directorySectors := r.directorySectors + 1 })
      dsimp only
      cases hscan : rootEntries v buffer 16 0 { r with
          result := .directoryReadBad
          lbas := r.lbas ++ [clusterStart v cluster + sector]
          directorySectors := r.directorySectors + 1 } with
      | stop r' =>
        rw [Nat.mul_zero, hscan] at hentries
        have hstopped : Stopped dev v (16 * (i * v.sectorsPerCluster + sector + 1)) r' := hentries
        exact hstopped.mono (by rw [hnext]; omega)
      | more r' =>
        rw [Nat.mul_zero, hscan] at hentries
        obtain ⟨hscanned, hseen⟩ := hentries
        have hrest := ih (show sector + 1 + left = v.sectorsPerCluster by omega) hscanned
        rw [hseen] at hrest
        exact hrest

/-- The end of a complete scan: all clusters up to the last one are sound. -/
structure RootPass (dev : Device) (v : Volume) (r : Report) : Prop where
  scanned : ∃ n i, Scanned dev v n r ∧ (∀ j ≤ i, Sound dev v v.rootCluster j) ∧
    (n < (i + 1) * slotsPerCluster v ∧ MarkerAt dev v n ∨
      n = (i + 1) * slotsPerCluster v ∧ LastAt dev v v.rootCluster i)

/-- **What the root scan gives.** -/
theorem rootClusters_scanned (hv : VolumeOk v partitionSectors lastLba) (hlast : lastLba < 2 ^ 32)
    (hseen : Seen dev v v.rootCluster i r.seen) (hc : hop dev v v.rootCluster i = some cluster)
    (hsound : ∀ j < i, Sound dev v v.rootCluster j)
    (h : Scanned dev v (i * slotsPerCluster v) r) :
    ((rootClusters dev v left cluster r).result = .rootPass →
      RootPass dev v (rootClusters dev v left cluster r)) ∧
    ((rootClusters dev v left cluster r).result = .rootPartial →
      ∃ n, Scanned dev v n (rootClusters dev v left cluster r)) := by
  induction left generalizing cluster i r with
  | zero => exact ⟨fun h0 => (by cases h0), fun _ => ⟨_, h.clear, h.entry⟩⟩
  | succ left ih =>
    rw [rootClusters]
    rcases visit_cases hv hlast hseen hc with ⟨next, hnow, hin, hlink, hgood, hvisit⟩ |
      ⟨hnot, hvisit | ⟨hin, hvisit | hvisit⟩⟩
    · have hstart : i * slotsPerCluster v = 16 * (i * v.sectorsPerCluster + 0) := by
        rw [slotsPerCluster, Nat.mul_left_comm, Nat.add_zero]
      rw [hstart] at h
      have hsectors := rootSectors_scanned hv hlast hin hc (Nat.zero_add _)
        (⟨h.clear, h.entry⟩ : Scanned dev v (16 * (i * v.sectorsPerCluster + 0))
          { r with
            result := .chainBad
            seen := r.seen ++ [cluster]
            lbas := r.lbas ++ [fatLba v cluster]
            clusters := r.clusters + 1 })
      have hsound' : ∀ j < i + 1, Sound dev v v.rootCluster j := fun j hj => by
        rcases Nat.lt_succ_iff_lt_or_eq.1 hj with hj | rfl
        · exact hsound j hj
        · exact hnow
      rw [hvisit]
      dsimp only
      cases hscan : rootSectors dev v (clusterStart v cluster) v.sectorsPerCluster 0 { r with
          result := .chainBad
          seen := r.seen ++ [cluster]
          lbas := r.lbas ++ [fatLba v cluster]
          clusters := r.clusters + 1 } with
      | stop r' =>
        rw [hscan] at hsectors
        have hstopped : Stopped dev v ((i + 1) * slotsPerCluster v) r' := hsectors
        refine ⟨fun hpass => ?_, hstopped.bounded⟩
        obtain ⟨n, hn, hscanned, hmarker⟩ := hstopped.pass hpass
        exact ⟨n, i, hscanned, fun j hj => hsound' j (Nat.lt_succ_of_le hj), .inl ⟨hn, hmarker⟩⟩
      | more r' =>
        rw [hscan] at hsectors
        obtain ⟨hscanned, hseen'⟩ := hsectors
        dsimp only
        split
        · next hend =>
          refine ⟨fun _ => ⟨_, i, ⟨hscanned.clear, hscanned.entry⟩,
            fun j hj => hsound' j (Nat.lt_succ_of_le hj), .inr ⟨rfl, ?_⟩⟩, fun h0 => (by cases h0)⟩
          exact ⟨cluster, next, hc, hlink, hend⟩
        · next hend =>
          refine ih ?_ (hop_succ hc hlink hgood hend) hsound' hscanned
          rw [hseen']
          exact hseen.succ hc
    all_goals
      rw [hvisit]
      exact ⟨fun h0 => (by cases h0), fun h0 => (by cases h0)⟩

/-! ## The listing -/

theorem RootPass.rootEnd (h : RootPass dev v r) :
    ∃ n, RootEnd dev v n ∧ r.entry = listing (rootSlots dev v n) := by
  obtain ⟨n, i, hscanned, -, hend⟩ := h.scanned
  refine ⟨n, ⟨hscanned.clear, ?_⟩, hscanned.entry⟩
  rcases hend with ⟨-, hmarker⟩ | ⟨hn, hlast⟩
  · exact .inl hmarker
  · exact .inr ⟨i, hn, hlast⟩

/-- A fault before the end marker is not passed. -/
theorem RootPass.no_fault (h : RootPass dev v r) (hclusters : v.clusters + 1 < 0x0ffffff0)
    (hfault : FaultAt dev v j) : ∃ t < j * slotsPerCluster v, MarkerAt dev v t := by
  obtain ⟨n, i, hscanned, hsound, hend⟩ := h.scanned
  obtain ⟨hsome, hnot⟩ := hfault
  have hj : i < j := Nat.lt_of_not_le fun hle => hnot (hsound j hle)
  rcases hend with ⟨hn, hmarker⟩ | ⟨-, hlast⟩
  · exact ⟨n, Nat.lt_of_lt_of_le hn (Nat.mul_le_mul_right _ hj), hmarker⟩
  · rw [hop_none_of_le (hlast.hop_succ hclusters) hj] at hsome
    exact absurd hsome Bool.false_ne_true

/-- Whatever is listed is the start of the whole listing. -/
theorem Scanned.entry_prefix (h : Scanned dev v n r) (hv : VolumeOk v partitionSectors lastLba)
    (hend : RootEnd dev v m) : r.entry <+: listing (rootSlots dev v m) := by
  rw [h.entry]
  refine listing_rootSlots_prefix ?_
  rcases hend.2 with hmarker | ⟨i, rfl, hlast⟩
  · exact h.clear.le_marker hmarker
  · exact h.clear.le_last hv.links.1 hv.cluster.1 hlast

/-- The end of the directory is one place. -/
theorem RootEnd.unique (hv : VolumeOk v partitionSectors lastLba) (hm : RootEnd dev v m)
    (hn : RootEnd dev v n) : m = n := by
  have hle : ∀ {a b}, RootEnd dev v a → RootEnd dev v b → a ≤ b := fun ha hb => by
    rcases hb.2 with hmarker | ⟨i, rfl, hlast⟩
    · exact ha.1.le_marker hmarker
    · exact ha.1.le_last hv.links.1 hv.cluster.1 hlast
  exact Nat.le_antisymm (hle hm hn) (hle hn hm)

/-- The report of a root scan. -/
theorem Ready.scanned (h : Ready lastLba v r) (hlast : lastLba < 2 ^ 32) (dev : Device)
    (buffer : Sector) :
    ((scanRoot dev buffer v r).result = .rootPass →
      RootPass dev v (scanRoot dev buffer v r)) ∧
    ((scanRoot dev buffer v r).result = .rootPartial →
      ∃ n, Scanned dev v n (scanRoot dev buffer v r)) := by
  refine rootClusters_scanned h.volume hlast ?_ rfl (fun j hj => absurd hj (Nat.not_lt_zero j))
    ⟨fun t ht => ?_, ?_⟩
  · dsimp only
    rw [h.seen]
    exact seen_zero dev v v.rootCluster
  · rw [Nat.zero_mul] at ht
    exact absurd ht (Nat.not_lt_zero t)
  · dsimp only
    rw [h.entry, Nat.zero_mul]
    rfl

/-- **The root listing is sound and complete**: a complete one has exactly the live entries up to
the end of the directory, a bounded one the first of them, and a chain with a fault before the end
marker never gives a complete one. -/
theorem fat_root_listing (sector0 : Sector) (lastLba : UInt32) (blockBytes : ℕ) (dev : Device) :
    let r := pi4Fat32Probe sector0 lastLba.toNat blockBytes dev
    (r.result = .rootPass → ∃ n, RootEnd dev r.volume n ∧
      (∀ m, RootEnd dev r.volume m → m = n) ∧ r.entry = listing (rootSlots dev r.volume n)) ∧
    (r.result = .rootPartial →
      (∃ n, Clear dev r.volume n ∧ r.entry = listing (rootSlots dev r.volume n)) ∧
      ∀ n, RootEnd dev r.volume n → r.entry <+: listing (rootSlots dev r.volume n)) ∧
    ∀ i, FaultAt dev r.volume i →
      (∀ t < i * slotsPerCluster r.volume, ¬MarkerAt dev r.volume t) → r.result ≠ .rootPass := by
  intro r
  have hlast : lastLba.toNat < 2 ^ 32 := lastLba.toNat_lt
  rcases pi4Fat32Probe_cases sector0 hlast blockBytes dev with
    ⟨-, hpass, hpartial⟩ | ⟨buffer, v, start, hready, hscan⟩
  · exact ⟨fun h => absurd h hpass, fun h => absurd h hpartial, fun _ _ _ => hpass⟩
  have hr : r = scanRoot dev buffer v start := hscan
  have hv := hready.volume
  obtain ⟨hpass, hpartial⟩ := hready.scanned hlast dev buffer
  rw [hr, (hready.probeOk hlast dev buffer).2]
  refine ⟨fun h => ?_, fun h => ?_, fun i hfault hclear h => ?_⟩
  · obtain ⟨n, hend, hentry⟩ := (hpass h).rootEnd
    exact ⟨n, hend, fun m hm => hm.unique hv hend, hentry⟩
  · obtain ⟨n, hscanned⟩ := hpartial h
    exact ⟨⟨n, hscanned.clear, hscanned.entry⟩, fun m hm => hscanned.entry_prefix hv hm⟩
  · obtain ⟨t, ht, hmarker⟩ := (hpass h).no_fault hv.links.1 hfault
    exact hclear t ht hmarker

end ZealBringup.Fat
