import ZealBringup.RedSea.PutSafe

/-!
# Deleting and renaming

`rs_del_file` writes the map and then the directory, `rs_rename_file` writes the
directory alone.

* `rsDelFile_outcome`, `rsRenameFile_outcome` — what they can leave.
* `Volume.deleted`, `Volume.renamed` — the volume and its files when they succeed.
-/

set_option maxRecDepth 10000

namespace ZealBringup.RedSea

open Store CrashDisk Extents

section Remove

variable {capacity : ℕ} {d : Disk Sector} {root sects : ℕ} {dev : Dev}

/-! ## Deleting -/

/-- The map without the clusters of slot `i`. -/
def deletedMap (d : Disk Sector) (root : ℕ) (i : Fin 8) : Sector :=
  freeRun (d 1) (slotBlk (d root) i) (slotClusters (d root) i)

/-- The disk without the file of slot `i`. -/
def deletedDisk (d : Disk Sector) (root : ℕ) (i : Fin 8) : Disk Sector :=
  Function.update (Function.update d 1 (deletedMap d root i)) root (clearSlot (d root) i)

/-- What `rs_del_file` returns and leaves, by the first write that fails. -/
inductive DelOutcome (name : CStr) (dev : Dev) (root : ℕ) : ℤ → Disk Sector → Prop
  | refused (code : ℤ) (hcode : code ≠ 0) : DelOutcome name dev root code dev.disk
  | map (hfail : FirstFail dev 0) : DelOutcome name dev root (-5) dev.disk
  | dir (i : Fin 8) (hname : isDots name = false)
      (hfind : rsFindSlot (dev.disk root) name.bytes = some i) (hfail : FirstFail dev 1) :
      DelOutcome name dev root (-6) (Function.update dev.disk 1 (deletedMap dev.disk root i))
  | done (i : Fin 8) (hfind : rsFindSlot (dev.disk root) name.bytes = some i) :
      DelOutcome name dev root 0 (deletedDisk dev.disk root i)

/-- **`rs_del_file`.** -/
theorem rsDelFile_outcome (name : CStr) (hvol : Books dev.capacity dev.disk root sects) :
    DelOutcome name dev root (rsDelFile name dev).1 (rsDelFile name dev).2.disk ∧
      (rsDelFile name dev).2.capacity = dev.capacity ∧
      (rsDelFile name dev).2.fails = dev.fails := by
  have hfits := hvol.fits
  have hsize := hvol.size
  unfold rsDelFile
  by_cases hdots : isDots name = true
  · rw [if_pos hdots]
    exact ⟨.refused _ (by norm_num), rfl, rfl⟩
  rw [if_neg hdots, hvol.readRoot]
  dsimp only
  cases hfind : rsFindSlot (dev.disk root) name.bytes with
  | none => exact ⟨.refused _ (by norm_num), rfl, rfl⟩
  | some i =>
    dsimp only
    obtain ⟨hlive, -⟩ := rsFindSlot_some hfind
    obtain ⟨hblk, hext⟩ := hvol.extents i hlive
    have hmod : max 1 (clusters (slotLen (dev.disk root) i)) % 2 ^ 32 =
        slotClusters (dev.disk root) i := Nat.mod_eq_of_lt (by
          show slotClusters (dev.disk root) i < 2 ^ 32
          omega)
    rw [if_neg (by omega), blkread_of_lt (by omega)]
    dsimp only
    rw [hmod, blkwrite_of_lt (by omega)]
    cases hf : dev.fails dev.writes with
    | true =>
      rw [if_pos rfl]
      exact ⟨.map ⟨fun t ht => absurd ht (Nat.not_lt_zero t), hf⟩, rfl, rfl⟩
    | false =>
      rw [if_neg Bool.false_ne_true]
      dsimp only
      rw [blkwrite_of_lt (by exact hfits.2)]
      dsimp only
      have hbefore : ∀ t < 0 + 1, dev.fails (dev.writes + t) = false :=
        fails_extend (fun t ht => absurd ht (Nat.not_lt_zero t)) hf
      cases hf' : dev.fails (dev.writes + 1) with
      | true =>
        rw [if_pos rfl]
        exact ⟨.dir i (by simpa using hdots) hfind ⟨hbefore, hf'⟩, rfl, rfl⟩
      | false =>
        rw [if_neg Bool.false_ne_true]
        exact ⟨.done i hfind, rfl, rfl⟩

variable {i : Fin 8}

theorem Volume.mem_deleted (hvol : Volume capacity d root sects)
    (hlive : slotLive (d root) i = true) (c : ℕ) :
    c ∈ marks (deletedMap d root i) ↔ c ∈ marks (d 1) ∧
      c ∉ Set.Ico (slotBlk (d root) i) (slotBlk (d root) i + slotClusters (d root) i) := by
  have hsize := hvol.size
  obtain ⟨-, hext⟩ := hvol.extents i hlive
  rw [deletedMap, mem_marks_freeRun (by omega), Set.mem_Ico, and_comm]

theorem Volume.deleted_books (hvol : Volume capacity d root sects) (i : Fin 8) :
    deletedDisk d root i 0 = d 0 ∧ deletedDisk d root i 1 = deletedMap d root i ∧
      deletedDisk d root i root = clearSlot (d root) i := by
  obtain ⟨hr0, hr1⟩ := hvol.rootApart
  refine ⟨?_, ?_, Function.update_self ..⟩
  · rw [deletedDisk, Function.update_of_ne hr0.symm, Function.update_of_ne (by norm_num)]
  · rw [deletedDisk, Function.update_of_ne hr1.symm, Function.update_self]

theorem sameSlot_clearSlot (dir : Sector) {j : Fin 8} (hj : j ≠ i) :
    SameSlot dir (clearSlot dir i) j :=
  sameSlot_of_off hj fun _ hk hoff => get_clearSlot_off hk hoff

theorem Volume.catalog_clearSlot (hvol : Volume capacity d root sects) (i : Fin 8) :
    catalogOf (clearSlot (d root) i) = Function.update (catalogOf (d root)) i none := by
  funext j
  by_cases hj : j = i
  · subst hj
    rw [Function.update_self, catalogOf, slotLive_clearSlot]
    exact if_neg Bool.false_ne_true
  · rw [Function.update_of_ne hj]
    exact (sameSlot_clearSlot _ hj).catalog fun hl => hvol.named j hl

/-- **The volume without a file.** -/
theorem Volume.deleted (hvol : Volume capacity d root sects) (hlive : slotLive (d root) i = true) :
    Volume capacity (deletedDisk d root i) root sects := by
  obtain ⟨h0, h1, hroot⟩ := hvol.deleted_books i
  have hcat := catalogOf_live hlive
  refine hvol.rebuild h0 i ?_ ?_ ?_
  · intro j hj
    rw [hroot]
    exact sameSlot_clearSlot _ hj
  · intro hl
    rw [hroot, slotLive_clearSlot] at hl
    cases hl
  · rw [hroot, h1, hvol.catalog_clearSlot]
    refine hvol.safe.erase i ?_ ?_
    · intro c hc
      refine (hvol.mem_deleted hlive c).2 ⟨hvol.safe.reserves hc, fun hmem => ?_⟩
      exact Set.disjoint_left.1 (hvol.safe.clear hcat) hmem hc
    · intro j e hj he c hc
      refine (hvol.mem_deleted hlive c).2 ⟨hvol.safe.marks he hc, fun hmem => ?_⟩
      exact Set.disjoint_left.1 (hvol.safe.apart hj he hcat) hc hmem

theorem Volume.deleted_files (hvol : Volume capacity d root sects) (i : Fin 8) :
    fileOf (deletedDisk d root i) root = Function.update (fileOf d root) i none := by
  obtain ⟨-, -, hroot⟩ := hvol.deleted_books i
  funext j
  by_cases hj : j = i
  · subst hj
    rw [Function.update_self, fileOf, hroot, slotLive_clearSlot]
    exact if_neg Bool.false_ne_true
  · rw [Function.update_of_ne hj]
    refine hvol.file_congr (by rw [hroot]; exact sameSlot_clearSlot _ hj) fun hl a h1 h2 => ?_
    obtain ⟨hne1, hner⟩ := hvol.data_ne hl h1 h2
    rw [deletedDisk, Function.update_of_ne hner, Function.update_of_ne hne1]

/-! ## Renaming -/

/-- The directory with slot `i` renamed. -/
def renamedDir (dir : Sector) (i : Fin 8) (newn : CStr) : Sector :=
  setName (copyBytes dir (i * 64 + 2) (List.replicate 38 0)) i newn.bytes

/-- What `rs_rename_file` returns and leaves. -/
inductive RenameOutcome (oldn newn : CStr) (dev : Dev) (root : ℕ) : ℤ → Disk Sector → Prop
  | refused (code : ℤ) (hcode : code ≠ 0) : RenameOutcome oldn newn dev root code dev.disk
  | done (i : Fin 8) (hfind : rsFindSlot (dev.disk root) oldn.bytes = some i)
      (hlen : newn.bytes ≠ [] ∧ newn.bytes.length ≤ 37)
      (hfree : foldName oldn.bytes = foldName newn.bytes ∨
        rsFindSlot (dev.disk root) newn.bytes = none) :
      RenameOutcome oldn newn dev root 0
        (Function.update dev.disk root (renamedDir (dev.disk root) i newn))

/-- **`rs_rename_file`.** -/
theorem rsRenameFile_outcome (oldn newn : CStr) (hvol : Volume dev.capacity dev.disk root sects) :
    RenameOutcome oldn newn dev root (rsRenameFile oldn newn dev).1
        (rsRenameFile oldn newn dev).2.disk ∧
      (rsRenameFile oldn newn dev).2.capacity = dev.capacity ∧
      (rsRenameFile oldn newn dev).2.fails = dev.fails := by
  unfold rsRenameFile
  by_cases hdots : isDots oldn = true
  · rw [if_pos hdots]
    exact ⟨.refused _ (by norm_num), rfl, rfl⟩
  rw [if_neg hdots]
  by_cases hlen : newn.bytes.length = 0 ∨ newn.bytes.length > 37
  · rw [if_pos hlen]
    exact ⟨.refused _ (by norm_num), rfl, rfl⟩
  rw [if_neg hlen, hvol.books.readRoot]
  rw [not_or, not_lt] at hlen
  dsimp only
  cases hfind : rsFindSlot (dev.disk root) oldn.bytes with
  | none => exact ⟨.refused _ (by norm_num), rfl, rfl⟩
  | some i =>
    dsimp only
    by_cases htaken : strIeq oldn.bytes newn.bytes = false ∧
        (rsFindSlot (dev.disk root) newn.bytes).isSome = true
    · rw [if_pos htaken]
      exact ⟨.refused _ (by norm_num), rfl, rfl⟩
    rw [if_neg htaken, blkwrite_of_lt hvol.fits.2]
    have hfree : foldName oldn.bytes = foldName newn.bytes ∨
        rsFindSlot (dev.disk root) newn.bytes = none := by
      rw [not_and_or] at htaken
      rcases htaken with hsame | hnone
      · exact Or.inl (strIeq_iff.1 (by simpa using hsame))
      · exact Or.inr (by simpa using hnone)
    cases dev.fails dev.writes with
    | true =>
      rw [if_pos rfl]
      exact ⟨.refused _ (by norm_num), rfl, rfl⟩
    | false =>
      rw [if_neg Bool.false_ne_true]
      refine ⟨.done i hfind ⟨fun hnil => hlen.1 ?_, hlen.2⟩ hfree, rfl, rfl⟩
      rw [hnil]
      rfl

variable {newn : CStr}

theorem get_renamedDir_off {dir : Sector} (hlen : newn.bytes.length ≤ 37) {k : ℕ} (hk : k < 512)
    (h : k < i * 64 + 2 ∨ i * 64 + 40 ≤ k) : (renamedDir dir i newn).get k = dir.get k := by
  rw [renamedDir, get_setName hk (by omega), get_copyBytes _ _ _ hk, if_neg]
  rw [List.length_replicate]
  omega

theorem slot_renamedDir (dir : Sector) (i : Fin 8)
    (hlen : newn.bytes ≠ [] ∧ newn.bytes.length ≤ 37) :
    slotLive (renamedDir dir i newn) i = true ∧ slotName (renamedDir dir i newn) i = newn.bytes ∧
      slotBlk (renamedDir dir i newn) i = slotBlk dir i ∧
      slotLen (renamedDir dir i newn) i = slotLen dir i := by
  have hi := i.isLt
  have hbytes := slotName_setName (copyBytes dir (i * 64 + 2) (List.replicate 38 0)) i hlen.2
  refine ⟨slotLive_of_name hlen.1 hbytes, slotName_of newn.nul hlen.2 hbytes, ?_, ?_⟩
  · exact word64_congr fun k hk => get_renamedDir_off hlen.2 (by omega) (by omega)
  · exact word64_congr fun k hk => get_renamedDir_off hlen.2 (by omega) (by omega)

theorem sameSlot_renamedDir (dir : Sector) {j : Fin 8} (hlen : newn.bytes.length ≤ 37)
    (hj : j ≠ i) : SameSlot dir (renamedDir dir i newn) j :=
  sameSlot_of_off hj fun k hk hoff => get_renamedDir_off hlen hk (by omega)

/-- **The volume with a file renamed.** -/
theorem Volume.renamed (hvol : Volume capacity d root sects) {oldn : CStr}
    (hfind : rsFindSlot (d root) oldn.bytes = some i)
    (hlen : newn.bytes ≠ [] ∧ newn.bytes.length ≤ 37)
    (hfree : foldName oldn.bytes = foldName newn.bytes ∨ rsFindSlot (d root) newn.bytes = none) :
    Volume capacity (Function.update d root (renamedDir (d root) i newn)) root sects := by
  obtain ⟨hr0, hr1⟩ := hvol.rootApart
  obtain ⟨hlive, hkey⟩ := rsFindSlot_some hfind
  obtain ⟨hlive', hname', hblk', hlen'⟩ := slot_renamedDir (d root) i hlen
  have hclus' : slotClusters (renamedDir (d root) i newn) i = slotClusters (d root) i := by
    rw [slotClusters, slotClusters, hlen']
  have hcat := catalogOf_live hlive
  refine hvol.rebuild (Function.update_of_ne hr0.symm _ _) i ?_ ?_ ?_
  · intro j hj
    rw [Function.update_self]
    exact sameSlot_renamedDir _ hlen.2 hj
  · intro _
    rw [Function.update_self, hname', hblk', hclus', hlen']
    obtain ⟨h1, h2⟩ := hvol.extents i hlive
    exact ⟨hlen.2, h1, h2, hvol.lengths i hlive⟩
  · rw [Function.update_self, Function.update_of_ne hr1.symm]
    have hupdate : catalogOf (renamedDir (d root) i newn) = Function.update (catalogOf (d root)) i
        (some ⟨foldName newn.bytes,
          Set.Ico (slotBlk (d root) i) (slotBlk (d root) i + slotClusters (d root) i)⟩) := by
      funext j
      by_cases hj : j = i
      · subst hj
        rw [Function.update_self, catalogOf_live hlive', hname', hblk', hclus']
      · rw [Function.update_of_ne hj]
        exact (sameSlot_renamedDir _ hlen.2 hj).catalog fun hl => hvol.named j hl
    rw [hupdate]
    have hmarks := hvol.safe.marks hcat
    have hclear := hvol.safe.clear hcat
    refine hvol.safe.put i _ hvol.safe.reserves hmarks hclear ?_
    intro j f hj hf
    have hapart := hvol.safe.apart hj.symm hcat hf
    refine ⟨hvol.safe.marks hf, hapart, fun hsame => ?_⟩
    obtain ⟨hlivej, rfl⟩ := catalogOf_some hf
    rcases hfree with hfold | hnone
    · exact hj (hvol.safe.keys hf hcat (hsame.trans (hfold.symm.trans hkey.symm)))
    · exact rsFindSlot_none_iff.1 hnone j hlivej hsame

theorem Volume.renamed_files (hvol : Volume capacity d root sects)
    (hlive : slotLive (d root) i = true) (hlen : newn.bytes ≠ [] ∧ newn.bytes.length ≤ 37) :
    fileOf (Function.update d root (renamedDir (d root) i newn)) root =
      Function.update (fileOf d root) i (some (foldName newn.bytes,
        fileBytes d (slotBlk (d root) i) (slotLen (d root) i))) := by
  obtain ⟨hlive', hname', hblk', hlen'⟩ := slot_renamedDir (d root) i hlen
  funext j
  by_cases hj : j = i
  · subst hj
    have hrun := hvol.run_le hlive
    have hbytes : fileBytes (Function.update d root (renamedDir (d root) j newn))
        (slotBlk (d root) j) (slotLen (d root) j) =
        fileBytes d (slotBlk (d root) j) (slotLen (d root) j) :=
      fileBytes_congr fun a h1 h2 =>
        Function.update_of_ne (hvol.data_ne hlive h1 (by omega)).2 _ _
    rw [Function.update_self, fileOf, Function.update_self, if_pos hlive', hname', hblk', hlen',
      hbytes]
  · rw [Function.update_of_ne hj]
    refine hvol.file_congr (by rw [Function.update_self]; exact sameSlot_renamedDir _ hlen.2 hj)
      fun hl a h1 h2 => ?_
    exact Function.update_of_ne (hvol.data_ne hl h1 h2).2 _ _

end Remove

/-! ## Calls -/

/-- A call of the RedSea functions. -/
inductive Op where
  | put (name : CStr) (src : List UInt8)
  | del (name : CStr)
  | rename (oldn newn : CStr)
  | load (name : CStr) (cap : ℕ)

/-- What it returns and the device after it. -/
def Op.run : Op → Dev → ℤ × Dev
  | put name src, dev => rsPutFile name src dev
  | del name, dev => rsDelFile name dev
  | rename oldn newn, dev => rsRenameFile oldn newn dev
  | load name cap, dev =>
      match rsLoadFile dev name cap with
      | .error e => (e, dev)
      | .ok _ => (0, dev)

/-- The files it is about. -/
def Op.names : Op → List (List UInt8)
  | put name _ => [foldName name.bytes]
  | del name => [foldName name.bytes]
  | rename oldn newn => [foldName oldn.bytes, foldName newn.bytes]
  | load _ _ => []

section Files

variable {root : ℕ}

theorem fileOf_key {d : Disk Sector} {i : Fin 8} {name : List UInt8}
    (hfind : rsFindSlot (d root) name = some i) {f : List UInt8 × List UInt8}
    (hf : fileOf d root i = some f) : f.1 = foldName name := by
  obtain ⟨hlive, hkey⟩ := rsFindSlot_some hfind
  rw [fileOf, if_pos hlive] at hf
  rw [← Option.some.inj hf]
  exact hkey

theorem fileOf_dead {d : Disk Sector} {i : Fin 8} (h : slotLive (d root) i = false) :
    fileOf d root i = none :=
  if_neg (by simp [h])

end Files

end ZealBringup.RedSea
