import ZealBringup.RedSea.Put

/-!
# What a put leaves behind

Every disk that `rs_put_file` can leave is a consistent volume again, and all files but
the one it names are as they were.

* `PutPlan.Ok.volume_switched`, `PutPlan.Ok.volume_released` — the volume afterwards.
* `PutPlan.Ok.files_switched` — the files afterwards.
-/

set_option maxRecDepth 10000

namespace ZealBringup.RedSea

open Store CrashDisk Extents

/-! ## Keeping a volume -/

section Keep

variable {capacity : ℕ} {d d' : Disk Sector} {root sects : ℕ}

theorem Volume.congr (h : Volume capacity d root sects) (h0 : d' 0 = d 0) (h1 : d' 1 = d 1)
    (hroot : d' root = d root) : Volume capacity d' root sects where
  boot := by rw [h0]; exact h.boot
  size := h.size
  fits := h.fits
  rootApart := h.rootApart
  named := by rw [hroot]; exact h.named
  extents := by rw [hroot]; exact h.extents
  lengths := by rw [hroot]; exact h.lengths
  safe := by rw [hroot, h1]; exact h.safe

theorem Volume.rebuild (h : Volume capacity d root sects) (h0 : d' 0 = d 0) (i : Fin 8)
    (hsame : ∀ j, j ≠ i → SameSlot (d root) (d' root) j)
    (hslot : slotLive (d' root) i = true → (slotName (d' root) i).length ≤ 37 ∧
      3 ≤ slotBlk (d' root) i ∧ slotBlk (d' root) i + slotClusters (d' root) i ≤ sects ∧
      slotLen (d' root) i + 511 < 2 ^ 64)
    (hsafe : Safe (reserved root) (catalogOf (d' root)) (marks (d' 1))) :
    Volume capacity d' root sects := by
  have hold : ∀ j, j ≠ i → slotLive (d' root) j = true → slotLive (d root) j = true := by
    intro j hj hlive
    rwa [(hsame j hj).live] at hlive
  refine ⟨by rw [h0]; exact h.boot, h.size, h.fits, h.rootApart, ?_, ?_, ?_, hsafe⟩
  · intro j hlive
    by_cases hj : j = i
    · subst hj
      exact (hslot hlive).1
    · have hname := h.named j (hold j hj hlive)
      rwa [(hsame j hj).name hname]
  · intro j hlive
    by_cases hj : j = i
    · subst hj
      exact ⟨(hslot hlive).2.1, (hslot hlive).2.2.1⟩
    · rw [(hsame j hj).blk, (hsame j hj).clusters]
      exact h.extents j (hold j hj hlive)
  · intro j hlive
    by_cases hj : j = i
    · subst hj
      exact (hslot hlive).2.2.2
    · rw [(hsame j hj).len]
      exact h.lengths j (hold j hj hlive)

/-- Where a data cluster is not. -/
theorem Volume.data_ne (h : Volume capacity d root sects) {i : Fin 8}
    (hlive : slotLive (d root) i = true) {a : ℕ} (h1 : slotBlk (d root) i ≤ a)
    (h2 : a < slotBlk (d root) i + slotClusters (d root) i) : a ≠ 1 ∧ a ≠ root := by
  obtain ⟨h3, -⟩ := h.extents i hlive
  refine ⟨by omega, ?_⟩
  rintro rfl
  have hclear := h.safe.clear (catalogOf_live hlive)
  exact Set.disjoint_left.1 hclear ⟨h1, h2⟩ (by simp [reserved])

/-- A file whose slot and clusters are the same is the same. -/
theorem Volume.file_congr (h : Volume capacity d root sects) {i : Fin 8}
    (hsame : SameSlot (d root) (d' root) i)
    (hdata : slotLive (d root) i = true → ∀ a, slotBlk (d root) i ≤ a →
      a < slotBlk (d root) i + slotClusters (d root) i → d' a = d a) :
    fileOf d' root i = fileOf d root i := by
  unfold fileOf
  rw [hsame.live]
  split
  · rename_i hlive
    have hrun := h.run_le hlive
    have hbytes : fileBytes d' (slotBlk (d root) i) (slotLen (d root) i) =
        fileBytes d (slotBlk (d root) i) (slotLen (d root) i) :=
      fileBytes_congr fun a h1 h2 => hdata hlive a h1 (by omega)
    rw [hsame.name (h.named i hlive), hsame.blk, hsame.len, hbytes]
  · rfl

theorem sameSlot_refl (dir : Sector) (i : Fin 8) : SameSlot dir dir i := fun _ _ => rfl

end Keep

/-! ## The new directory -/

section Put

variable {capacity : ℕ} {d : Disk Sector} {root sects : ℕ} {name : CStr} {src : List UInt8}
  {p : PutPlan}

variable {j : Fin 8}

theorem PutPlan.Ok.newDir_same (hp : p.Ok name src d root sects) (hj : j ≠ p.slot) :
    SameSlot (d root) (p.newDir name src.length) j := by
  have hslot := p.slot.isLt
  refine sameSlot_of_off hj fun k hk hoff => ?_
  rw [PutPlan.newDir, get_setExtent hk (by omega)]
  have hdir : p.root.dir = d root := by rw [hp.onRoot]
  split
  · rw [hdir]
  · have hname := hp.short
    rw [get_setName hk (by omega), get_copyBytes _ _ _ hk, if_neg, get_clearSlot_off hk hoff, hdir]
    rw [List.length_cons, List.length_singleton]
    omega

theorem length_eq_of_fold {a b : List UInt8} (h : foldName a = foldName b) :
    a.length = b.length := by
  rw [← length_foldName a, h, length_foldName]

/-- A live slot has a name. -/
theorem slotName_ne_nil {dir : Sector} {i : Fin 8} (h : slotLive dir i = true) :
    slotName dir i ≠ [] := by
  intro hnil
  have h0 := @get_slotName dir i (by rw [hnil]; exact Nat.zero_le _) 0 (Nat.zero_le _)
  rw [hnil, Nat.add_zero, List.nil_append, List.getD_cons_zero] at h0
  rw [slotLive, h0] at h
  exact absurd h (by decide)

/-- The slot that `rs_put_file` fills, by the name it is given. -/
theorem PutPlan.Ok.newDir_slot (hp : p.Ok name src d root sects)
    (hvol : Books capacity d root sects) (hfit : p.fblk + p.nclus ≤ sects) :
    slotBlk (p.newDir name src.length) p.slot = p.fblk ∧
      slotLen (p.newDir name src.length) p.slot = src.length ∧
      (name.bytes = [] → p.existing = false ∧
        slotLive (p.newDir name src.length) p.slot = false) ∧
      (name.bytes ≠ [] → slotLive (p.newDir name src.length) p.slot = true ∧
        (slotName (p.newDir name src.length) p.slot).length ≤ 37 ∧
        foldName (slotName (p.newDir name src.length) p.slot) = foldName name.bytes) := by
  have hslot := p.slot.isLt
  have hsize := hvol.size
  have hlen := hp.sized
  have hdir : p.root.dir = d root := by rw [hp.onRoot]
  obtain ⟨hblk, hlength⟩ := @slot_setExtent (if p.existing then p.root.dir
    else setName (copyBytes (clearSlot p.root.dir p.slot) (p.slot * 64) [0x20, 0x04]) p.slot
      name.bytes) p.slot p.fblk src.length (by omega) (by omega)
  refine ⟨hblk, hlength, ?_⟩
  cases hex : p.existing with
  | true =>
    obtain ⟨hfind, -⟩ := hp.old hex
    obtain ⟨hlive, hkey⟩ := rsFindSlot_some hfind
    have hname := hvol.named p.slot hlive
    have hbytes : ∀ k : ℕ, k < 38 → (p.newDir name src.length).get (p.slot * 64 + 2 + k) =
        (d root).get (p.slot * 64 + 2 + k) := by
      intro k hk
      rw [PutPlan.newDir, get_setExtent (by omega) (by omega), if_pos hex, hdir]
    have hlive' : slotLive (p.newDir name src.length) p.slot = true := by
      rw [slotLive] at hlive ⊢
      rwa [hbytes 0 (by norm_num)]
    refine ⟨fun hnil => ?_, fun _ => ?_⟩
    · have hzero := length_eq_of_fold hkey
      rw [hnil, List.length_nil, List.length_eq_zero_iff] at hzero
      exact absurd hzero (slotName_ne_nil hlive)
    · rw [slotName_congr hname hbytes]
      exact ⟨hlive', hname, hkey⟩
  | false =>
    have hbytes : ∀ k ≤ name.bytes.length,
        (p.newDir name src.length).get (p.slot * 64 + 2 + k) = (name.bytes ++ [0]).getD k 0 := by
      intro k hk
      have hname := hp.short
      rw [PutPlan.newDir, get_setExtent (by omega) (by omega), if_neg (by simp [hex])]
      exact slotName_setName _ _ hname k hk
    refine ⟨fun hnil => ⟨rfl, ?_⟩, fun hne => ?_⟩
    · have h0 := hbytes 0 (Nat.zero_le _)
      rw [hnil] at h0
      exact slotLive_empty_name h0
    · have hread := slotName_of name.nul hp.short hbytes
      rw [hread]
      exact ⟨slotLive_of_name hne hbytes, hp.short, rfl⟩

theorem PutPlan.Ok.catalog (hp : p.Ok name src d root sects) (hvol : Books capacity d root sects)
    (hfit : p.fblk + p.nclus ≤ sects) :
    catalogOf (p.newDir name src.length) = Function.update (catalogOf (d root)) p.slot
      (if name.bytes = [] then none
        else some ⟨foldName name.bytes, Set.Ico p.fblk (p.fblk + p.nclus)⟩) := by
  obtain ⟨hblk, hlen, hdead, hlive⟩ := hp.newDir_slot hvol hfit
  have hsized := hp.sized
  have hclus : slotClusters (p.newDir name src.length) p.slot = p.nclus := by
    rw [slotClusters, hlen, clusters_eq (by omega), hp.nclus, max_eq_right (by omega)]
  funext j
  by_cases hj : j = p.slot
  · subst hj
    rw [Function.update_self]
    by_cases hnil : name.bytes = []
    · rw [if_pos hnil, catalogOf, if_neg (by simp [(hdead hnil).2])]
    · obtain ⟨h1, -, h3⟩ := hlive hnil
      rw [if_neg hnil, catalogOf_live h1, h3, hblk, hclus]
  · rw [Function.update_of_ne hj]
    exact (hp.newDir_same hj).catalog fun hl => hvol.named j hl

/-! ## The marks -/

theorem PutPlan.Ok.mem_marks (hp : p.Ok name src d root sects) (hvol : Volume capacity d root sects)
    (hfit : p.fblk + p.nclus ≤ sects) (c : ℕ) :
    c ∈ marks p.map ↔ p.fblk ≤ c ∧ c < p.fblk + p.nclus ∨ c ∈ marks (d 1) := by
  have hsize := hvol.size
  cases hnew : p.newRun with
  | true =>
    obtain ⟨-, hmap, -⟩ := hp.run hnew
    rw [hmap, mem_marks_setRun (by omega)]
  | false =>
    obtain ⟨hex, hblk, hmap, hle⟩ := hp.inPlace hnew
    obtain ⟨hfind, -, hold, hclus⟩ := hp.old hex
    rw [hmap]
    refine (or_iff_right_of_imp fun hc => ?_).symm
    refine hvol.safe.marks (catalogOf_live (rsFindSlot_some hfind).1) ?_
    rw [hblk, hold] at hc
    rw [hclus] at hle
    exact ⟨hc.1, by omega⟩

/-- The clusters of the new data belong to nobody else. -/
theorem PutPlan.Ok.apart (hp : p.Ok name src d root sects) (hvol : Volume capacity d root sects) :
    Disjoint (Set.Ico p.fblk (p.fblk + p.nclus)) (reserved root) ∧
      ∀ j e, j ≠ p.slot → catalogOf (d root) j = some e →
        Disjoint (Set.Ico p.fblk (p.fblk + p.nclus)) e.blocks := by
  cases hnew : p.newRun with
  | true =>
    obtain ⟨hfind, -⟩ := hp.run hnew
    obtain ⟨-, -, hfree⟩ := rsFindRun_some hfind
    have hdisj : Disjoint (Set.Ico p.fblk (p.fblk + p.nclus)) (marks (d 1)) :=
      Set.disjoint_left.2 fun c hc => hfree c hc.1 hc.2
    exact ⟨hdisj.mono_right hvol.safe.reserves, fun j e _ he => hvol.safe.free_apart hdisj he⟩
  | false =>
    obtain ⟨hex, hblk, -, hle⟩ := hp.inPlace hnew
    obtain ⟨hfind, -, hold, hclus⟩ := hp.old hex
    have hcat := catalogOf_live (rsFindSlot_some hfind).1
    have hsub : Set.Ico p.fblk (p.fblk + p.nclus) ⊆ Set.Ico (slotBlk (d root) p.slot)
        (slotBlk (d root) p.slot + slotClusters (d root) p.slot) := by
      rw [hblk, hold]
      exact Set.Ico_subset_Ico_right (by omega)
    exact ⟨(hvol.safe.clear hcat).mono_left hsub,
      fun j e hj he => (hvol.safe.apart hj.symm hcat he).mono_left hsub⟩

theorem PutPlan.Ok.keys (hp : p.Ok name src d root sects) (hvol : Volume capacity d root sects)
    {e : Entry (List UInt8)} (hj : j ≠ p.slot) (he : catalogOf (d root) j = some e) :
    e.key ≠ foldName name.bytes := by
  obtain ⟨hlive, rfl⟩ := catalogOf_some he
  intro hkey
  cases hex : p.existing with
  | true =>
    obtain ⟨hfind, -⟩ := hp.old hex
    obtain ⟨hlive', hkey'⟩ := rsFindSlot_some hfind
    exact hj (hvol.safe.keys (catalogOf_live hlive) (catalogOf_live hlive') (hkey.trans hkey'.symm))
  | false => exact rsFindSlot_none_iff.1 (hp.fresh hex).1 j hlive hkey

/-- Any marks that cover the new run, the reserved clusters and the other files will do. -/
theorem PutPlan.Ok.safe (hp : p.Ok name src d root sects) (hvol : Volume capacity d root sects)
    (hfit : p.fblk + p.nclus ≤ sects) {marked : Set ℕ} (hres : reserved root ⊆ marked)
    (hrun : Set.Ico p.fblk (p.fblk + p.nclus) ⊆ marked)
    (hother : ∀ j e, j ≠ p.slot → catalogOf (d root) j = some e → e.blocks ⊆ marked) :
    Safe (reserved root) (catalogOf (p.newDir name src.length)) marked := by
  obtain ⟨hclear, hapart⟩ := hp.apart hvol
  rw [hp.catalog hvol.books hfit]
  by_cases hnil : name.bytes = []
  · rw [if_pos hnil]
    exact hvol.safe.erase p.slot hres hother
  · rw [if_neg hnil]
    exact hvol.safe.put p.slot _ hres hrun hclear fun j f hj hf =>
      ⟨hother j f hj hf, hapart j f hj hf, hp.keys hvol hj hf⟩

/-! ## The volume afterwards -/

theorem PutPlan.Ok.root_eq (hp : p.Ok name src d root sects) : p.root.root = root := by
  rw [hp.onRoot]

variable {k : ℕ}

/-- Data written to the run is not where the volume keeps its books. -/
theorem PutPlan.Ok.wrote_books (hp : p.Ok name src d root sects)
    (hvol : Volume capacity d root sects) (hk : k ≤ p.nclus) {a : ℕ} (ha : a ∈ reserved root) :
    wrote d p.fblk src 0 k a = d a := by
  refine wrote_off ?_
  by_contra hmem
  rw [not_or, not_lt, not_le] at hmem
  exact Set.disjoint_left.1 (hp.apart hvol).1 ⟨by omega, by omega⟩ ha

theorem PutPlan.Ok.marked_books (hp : p.Ok name src d root sects)
    (hvol : Volume capacity d root sects) :
    p.marked src d 0 = d 0 ∧ p.marked src d 1 = p.map ∧ p.marked src d root = d root := by
  obtain ⟨hr0, hr1⟩ := hvol.rootApart
  refine ⟨?_, Function.update_self .., ?_⟩
  · rw [PutPlan.marked, Function.update_of_ne (by norm_num)]
    exact hp.wrote_books hvol (le_refl _) (by simp [reserved])
  · rw [PutPlan.marked, Function.update_of_ne hr1]
    exact hp.wrote_books hvol (le_refl _) (by simp [reserved])

theorem PutPlan.Ok.switched_books (hp : p.Ok name src d root sects)
    (hvol : Volume capacity d root sects) :
    p.switched name src d 0 = d 0 ∧ p.switched name src d 1 = p.map ∧
      p.switched name src d root = p.newDir name src.length := by
  obtain ⟨hr0, hr1⟩ := hvol.rootApart
  obtain ⟨h0, h1, -⟩ := hp.marked_books hvol
  refine ⟨?_, ?_, ?_⟩
  · rw [PutPlan.switched, hp.root_eq, Function.update_of_ne hr0.symm, h0]
  · rw [PutPlan.switched, hp.root_eq, Function.update_of_ne hr1.symm, h1]
  · rw [PutPlan.switched, hp.root_eq, Function.update_self]

/-- The new slot is a slot of a volume. -/
theorem PutPlan.Ok.slot_fits (hp : p.Ok name src d root sects) (hvol : Books capacity d root sects)
    (hfit : 3 ≤ p.fblk ∧ p.fblk + p.nclus ≤ sects)
    (hlive : slotLive (p.newDir name src.length) p.slot = true) :
    (slotName (p.newDir name src.length) p.slot).length ≤ 37 ∧
      3 ≤ slotBlk (p.newDir name src.length) p.slot ∧
      slotBlk (p.newDir name src.length) p.slot + slotClusters (p.newDir name src.length) p.slot ≤
        sects ∧
      slotLen (p.newDir name src.length) p.slot + 511 < 2 ^ 64 := by
  obtain ⟨hblk, hlen, hdead, hname⟩ := hp.newDir_slot hvol hfit.2
  have hsized := hp.sized
  have hne : name.bytes ≠ [] := by
    intro hnil
    rw [(hdead hnil).2] at hlive
    cases hlive
  have hclus : slotClusters (p.newDir name src.length) p.slot = p.nclus := by
    rw [slotClusters, hlen, clusters_eq (by omega), hp.nclus, max_eq_right (by omega)]
  rw [hclus, hblk, hlen]
  exact ⟨(hname hne).2.1, hfit.1, hfit.2, by omega⟩

/-- **After the directory has been written.** -/
theorem PutPlan.Ok.volume_switched (hp : p.Ok name src d root sects)
    (hvol : Volume capacity d root sects) (hfit : 3 ≤ p.fblk ∧ p.fblk + p.nclus ≤ sects) :
    Volume capacity (p.switched name src d) root sects := by
  obtain ⟨h0, h1, hroot⟩ := hp.switched_books hvol
  have hsub : marks (d 1) ⊆ marks p.map := fun c hc => (hp.mem_marks hvol hfit.2 c).2 (Or.inr hc)
  refine hvol.rebuild h0 p.slot ?_ ?_ ?_
  · intro j hj
    rw [hroot]
    exact hp.newDir_same hj
  · rw [hroot]
    exact hp.slot_fits hvol.books hfit
  · rw [hroot, h1]
    exact hp.safe hvol hfit.2 (hvol.safe.reserves.trans hsub)
      (fun c hc => (hp.mem_marks hvol hfit.2 c).2 (Or.inl hc))
      fun j e _ he => (hvol.safe.marks he).trans hsub

theorem PutPlan.Ok.released_run (hp : p.Ok name src d root sects)
    (hvol : Volume capacity d root sects) (hrel : p.Releases) :
    ∃ first count, p.freedMap = freeRun p.map first count ∧ first + count ≤ 4096 ∧
      Set.Ico first (first + count) ⊆ Set.Ico (slotBlk (d root) p.slot)
        (slotBlk (d root) p.slot + slotClusters (d root) p.slot) ∧
      Disjoint (Set.Ico first (first + count)) (Set.Ico p.fblk (p.fblk + p.nclus)) ∧
      ∀ c, slotBlk (d root) p.slot ≤ c → c < slotBlk (d root) p.slot + slotClusters (d root) p.slot →
        c ∉ Set.Ico first (first + count) → c ∈ Set.Ico p.fblk (p.fblk + p.nclus) := by
  obtain ⟨hex, hkind⟩ := hrel
  obtain ⟨hfind, -, hold, hclus⟩ := hp.old hex
  obtain ⟨hlive, -⟩ := rsFindSlot_some hfind
  obtain ⟨-, hext⟩ := hvol.extents p.slot hlive
  have hsize := hvol.size
  cases hnew : p.newRun with
  | true =>
    refine ⟨p.oldBlk, p.oldNclus, ?_, by omega, ?_, ?_, ?_⟩
    · rw [PutPlan.freedMap, if_pos hnew]
    · rw [hold, hclus]
    · obtain ⟨hrun, -⟩ := hp.run hnew
      obtain ⟨-, -, hfree⟩ := rsFindRun_some hrun
      rw [hold, hclus]
      exact Set.disjoint_left.2 fun c hc hc' =>
        hfree c hc'.1 hc'.2 (hvol.safe.marks (catalogOf_live hlive) hc)
    · intro c h1 h2 hnot
      rw [hold, hclus] at hnot
      exact absurd ⟨h1, h2⟩ hnot
  | false =>
    obtain ⟨-, hblk, -, hle⟩ := hp.inPlace hnew
    refine ⟨p.oldBlk + p.nclus, p.oldNclus - p.nclus, ?_, by omega, ?_, ?_, ?_⟩
    · rw [PutPlan.freedMap, hnew]
      exact if_neg Bool.false_ne_true
    · rintro c ⟨h1, h2⟩
      exact ⟨by omega, by omega⟩
    · refine Set.disjoint_left.2 ?_
      rintro c ⟨h1, h2⟩ ⟨h3, h4⟩
      omega
    · intro c h1 h2 hnot
      rw [Set.mem_Ico, not_and_or] at hnot
      exact ⟨by omega, by omega⟩

theorem PutPlan.Ok.mem_freed (hp : p.Ok name src d root sects)
    (hvol : Volume capacity d root sects) (hfit : p.fblk + p.nclus ≤ sects) (hrel : p.Releases)
    (c : ℕ) : c ∈ marks p.freedMap ↔ c ∈ Set.Ico p.fblk (p.fblk + p.nclus) ∨
      c ∈ marks (d 1) ∧ c ∉ Set.Ico (slotBlk (d root) p.slot)
        (slotBlk (d root) p.slot + slotClusters (d root) p.slot) := by
  obtain ⟨first, count, hmap, hlt, hsub, hdisj, hcover⟩ := hp.released_run hvol hrel
  rw [hmap, mem_marks_freeRun hlt, hp.mem_marks hvol hfit]
  constructor
  · rintro ⟨hnot, hnew | hold⟩
    · exact Or.inl hnew
    · by_cases hmem : c ∈ Set.Ico (slotBlk (d root) p.slot)
          (slotBlk (d root) p.slot + slotClusters (d root) p.slot)
      · exact Or.inl (hcover c hmem.1 hmem.2 hnot)
      · exact Or.inr ⟨hold, hmem⟩
  · rintro (hnew | ⟨hold, hnot⟩)
    · exact ⟨fun hc => Set.disjoint_left.1 hdisj hc hnew, Or.inl hnew⟩
    · exact ⟨fun hc => hnot (hsub hc), Or.inr hold⟩

/-- **After the old clusters have been released.** -/
theorem PutPlan.Ok.volume_released (hp : p.Ok name src d root sects)
    (hvol : Volume capacity d root sects) (hfit : 3 ≤ p.fblk ∧ p.fblk + p.nclus ≤ sects)
    (hrel : p.Releases) : Volume capacity (p.released name src d) root sects := by
  obtain ⟨h0, -, hroot⟩ := hp.switched_books hvol
  obtain ⟨hr0, hr1⟩ := hvol.rootApart
  obtain ⟨hlive, -⟩ := rsFindSlot_some (hp.old hrel.1).1
  have h0' : p.released name src d 0 = d 0 := by
    rw [PutPlan.released, Function.update_of_ne (by norm_num), h0]
  have h1' : p.released name src d 1 = p.freedMap := Function.update_self ..
  have hroot' : p.released name src d root = p.newDir name src.length := by
    rw [PutPlan.released, Function.update_of_ne hr1, hroot]
  refine hvol.rebuild h0' p.slot ?_ ?_ ?_
  · intro j hj
    rw [hroot']
    exact hp.newDir_same hj
  · rw [hroot']
    exact hp.slot_fits hvol.books hfit
  · rw [hroot', h1']
    refine hp.safe hvol hfit.2 ?_ ?_ ?_
    · intro c hc
      refine (hp.mem_freed hvol hfit.2 hrel c).2 (Or.inr ⟨hvol.safe.reserves hc, fun hmem => ?_⟩)
      exact Set.disjoint_left.1 (hvol.safe.clear (catalogOf_live hlive)) hmem hc
    · exact fun c hc => (hp.mem_freed hvol hfit.2 hrel c).2 (Or.inl hc)
    · intro j e hj he c hc
      refine (hp.mem_freed hvol hfit.2 hrel c).2
        (Or.inr ⟨hvol.safe.marks he hc, fun hmem => ?_⟩)
      exact Set.disjoint_left.1 (hvol.safe.apart hj he (catalogOf_live hlive)) hc hmem

/-! ## The files afterwards -/

theorem fileBytes_blocks {d' : Disk Sector} {fblk : ℕ}
    (h : ∀ k < (src.length + 511) / 512, d' (fblk + k) = dataBlock src k) :
    fileBytes d' fblk src.length = src := by
  refine List.ext_getElem? fun i => ?_
  rw [fileBytes, List.getElem?_map]
  by_cases hi : i < src.length
  · rw [List.getElem?_range hi, Option.map_some, h _ (by omega),
      get_dataBlock _ _ (Nat.mod_lt _ (by norm_num)), List.getElem?_eq_getElem hi,
      show i / 512 * 512 + i % 512 = i by omega, List.getD_eq_getElem _ _ hi]
  · rw [List.getElem?_eq_none (by rw [List.length_range]; omega),
      List.getElem?_eq_none (by omega)]
    rfl

/-- A file other than the one that is overwritten is away from the new data. -/
theorem PutPlan.Ok.data_off (hp : p.Ok name src d root sects)
    (hvol : Volume capacity d root sects) (hj : p.newRun = true ∨ j ≠ p.slot)
    (hlive : slotLive (d root) j = true) {a : ℕ} (h1 : slotBlk (d root) j ≤ a)
    (h2 : a < slotBlk (d root) j + slotClusters (d root) j) :
    a ∉ Set.Ico p.fblk (p.fblk + p.nclus) := by
  intro ha
  by_cases hne : j = p.slot
  · obtain ⟨hfind, -⟩ := hp.run (hj.resolve_right (not_not.2 hne))
    obtain ⟨-, -, hfree⟩ := rsFindRun_some hfind
    exact hfree a ha.1 ha.2 (hvol.safe.marks (catalogOf_live hlive) ⟨h1, h2⟩)
  · exact Set.disjoint_left.1 ((hp.apart hvol).2 j _ hne (catalogOf_live hlive)) ha ⟨h1, h2⟩

/-- The other files, once the directory has been switched. -/
theorem PutPlan.Ok.file_switched_of_ne (hp : p.Ok name src d root sects)
    (hvol : Volume capacity d root sects) (hj : j ≠ p.slot) :
    fileOf (p.switched name src d) root j = fileOf d root j := by
  obtain ⟨-, -, hroot⟩ := hp.switched_books hvol
  refine hvol.file_congr (by rw [hroot]; exact hp.newDir_same hj) fun hlive a h1 h2 => ?_
  have hoff := hp.data_off hvol (Or.inr hj) hlive h1 h2
  rw [Set.mem_Ico, not_and_or, not_le, not_lt] at hoff
  obtain ⟨hne1, hner⟩ := hvol.data_ne hlive h1 h2
  rw [PutPlan.switched, hp.root_eq, Function.update_of_ne hner, PutPlan.marked,
    Function.update_of_ne hne1]
  exact wrote_off (by omega)

/-- **The file that was put.** -/
theorem PutPlan.Ok.file_switched (hp : p.Ok name src d root sects)
    (hvol : Volume capacity d root sects) (hfit : 3 ≤ p.fblk ∧ p.fblk + p.nclus ≤ sects) :
    fileOf (p.switched name src d) root p.slot =
      if name.bytes = [] then none else some (foldName name.bytes, src) := by
  obtain ⟨-, -, hroot⟩ := hp.switched_books hvol
  obtain ⟨hblk, hlen, hdead, hname⟩ := hp.newDir_slot hvol.books hfit.2
  rw [fileOf, hroot]
  by_cases hnil : name.bytes = []
  · rw [if_pos hnil, if_neg (by simp [(hdead hnil).2])]
  · obtain ⟨hlive, -, hkey⟩ := hname hnil
    rw [if_neg hnil, if_pos hlive, hkey, hblk, hlen, fileBytes_blocks]
    intro k hk
    rw [← hp.nclus] at hk
    have hne : ∀ a ∈ reserved root, p.fblk + k ≠ a := by
      rintro a ha rfl
      exact Set.disjoint_left.1 (hp.apart hvol).1 ⟨by omega, by omega⟩ ha
    rw [PutPlan.switched, hp.root_eq, Function.update_of_ne (hne root (by simp [reserved])),
      PutPlan.marked, Function.update_of_ne (hne 1 (by simp [reserved])), wrote,
      if_pos (by omega), Nat.add_sub_cancel_left]

theorem PutPlan.Ok.file_released (hp : p.Ok name src d root sects)
    (hvol : Volume capacity d root sects) (hfit : 3 ≤ p.fblk ∧ p.fblk + p.nclus ≤ sects)
    (j : Fin 8) : fileOf (p.released name src d) root j = fileOf (p.switched name src d) root j := by
  have hvol' := hp.volume_switched hvol hfit
  have hroot : p.released name src d root = p.switched name src d root :=
    Function.update_of_ne hvol.rootApart.2 _ _
  refine hvol'.file_congr (by rw [hroot]; exact sameSlot_refl _ _) fun hlive a h1 h2 => ?_
  exact Function.update_of_ne (hvol'.data_ne hlive h1 h2).1 _ _

end Put

end ZealBringup.RedSea
