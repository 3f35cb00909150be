import ZealBringup.RedSea.Remove

/-!
# Files to be kept

A put or a deletion, whichever of its writes fail, changes one slot of the directory, the
clusters of one run and the marks of what the slot had.  Some slots can therefore be kept through
any number of such calls, even if a failed one has left the others in disorder.

* `Touches` — what one call can change; `PutOutcome.touches`, `DelOutcome.touches`.
* `Guards` — the invariant of the slots to be kept; `Guards.touch`.
-/

set_option maxRecDepth 10000

namespace ZealBringup.RedSea

open Store CrashDisk Extents

/-- Slot `i`, the clusters of `run` and the marks of what the slot had are all that changed; what
the slot has now, it had before, or it is the run under the name `key`. -/
structure Touches (root sects : ℕ) (key : List UInt8) (d d' : Disk Sector) (i : Fin 8)
    (run : Set ℕ) : Prop where
  off : ∀ a, a ∉ run → a ≠ 1 → a ≠ root → d' a = d a
  slots : ∀ j, j ≠ i → SameSlot (d root) (d' root) j
  marks : ∀ c ∈ marks (d 1), (∀ e, catalogOf (d root) i = some e → c ∉ e.blocks) → c ∈ marks (d' 1)
  held : ∀ e, catalogOf (d' root) i = some e → catalogOf (d root) i = some e ∨ e = ⟨key, run⟩
  fits : slotLive (d' root) i = true → (slotName (d' root) i).length ≤ 37 ∧
    3 ≤ slotBlk (d' root) i ∧ slotBlk (d' root) i + slotClusters (d' root) i ≤ sects ∧
    slotLen (d' root) i + 511 < 2 ^ 64

/-- The slots of `kept` are as they were on the disk `d₀`, and nothing they use can be given out
again. -/
structure Guards (kept : Set (Fin 8)) (d₀ : Disk Sector) (capacity : ℕ) (d : Disk Sector)
    (root sects : ℕ) : Prop where
  books : Books capacity d root sects
  shields : Shields kept (reserved root) (catalogOf (d root)) (marks (d 1))
  live : ∀ i ∈ kept, slotLive (d root) i = true
  slots : ∀ i ∈ kept, SameSlot (d₀ root) (d root) i
  data : ∀ i ∈ kept, ∀ e, catalogOf (d root) i = some e → ∀ c ∈ e.blocks, d c = d₀ c

section Guards

variable {kept : Set (Fin 8)} {d₀ d d' : Disk Sector} {capacity root sects : ℕ}

theorem SameSlot.trans {dir dir' dir'' : Sector} {i : Fin 8} (h : SameSlot dir dir' i)
    (h' : SameSlot dir' dir'' i) : SameSlot dir dir'' i :=
  fun k hk => (h' k hk).trans (h k hk)

/-- A consistent volume guards any of its files. -/
theorem Volume.guards (h : Volume capacity d root sects)
    (hlive : ∀ i ∈ kept, slotLive (d root) i = true) : Guards kept d capacity d root sects :=
  ⟨h.books, h.safe.shields kept, hlive, fun i _ => sameSlot_refl _ i, fun _ _ _ _ _ _ => rfl⟩

/-- A guarded file is the same file. -/
theorem Guards.file (h : Guards kept d₀ capacity d root sects) {i : Fin 8} (hi : i ∈ kept)
    (hname : (slotName (d₀ root) i).length ≤ 37) : fileOf d root i = fileOf d₀ root i := by
  have hsame := h.slots i hi
  have hlive := h.live i hi
  have hlive₀ : slotLive (d₀ root) i = true := by rwa [hsame.live] at hlive
  have hrun : (slotLen (d₀ root) i + 511) / 512 ≤ slotClusters (d root) i := by
    rw [hsame.clusters, slotClusters, clusters_eq (by
      have hlen := h.books.lengths i hlive
      rwa [hsame.len] at hlen)]
    exact le_max_right _ _
  rw [fileOf, fileOf, if_pos hlive, if_pos hlive₀, hsame.name hname, hsame.blk, hsame.len]
  congr 2
  refine fileBytes_congr fun a h1 h2 => h.data i hi _ (catalogOf_live hlive) a ⟨?_, ?_⟩
  · rwa [hsame.blk]
  · rw [hsame.blk]
    omega

/-- **One call.**  It is about another slot, and what it takes belongs to no slot to be kept. -/
theorem Guards.touch (h : Guards kept d₀ capacity d root sects) {i : Fin 8} {run : Set ℕ}
    {key : List UInt8} (hi : i ∉ kept) (hres : Disjoint run (reserved root))
    (hrun : ∀ j f, j ∈ kept → catalogOf (d root) j = some f → Disjoint run f.blocks ∧ f.key ≠ key)
    (ht : Touches root sects key d d' i run) : Guards kept d₀ capacity d' root sects := by
  have hne : ∀ {j}, j ∈ kept → j ≠ i := by
    rintro j hj rfl
    exact hi hj
  have hother : ∀ {j}, j ≠ i → catalogOf (d' root) j = catalogOf (d root) j := fun hj =>
    (ht.slots _ hj).catalog fun hl => h.books.named _ hl
  have hcat : catalogOf (d' root) = Function.update (catalogOf (d root)) i (catalogOf (d' root) i) := by
    funext j
    by_cases hj : j = i
    · subst hj
      rw [Function.update_self]
    · rw [Function.update_of_ne hj, hother hj]
  have h0 : d' 0 = d 0 := ht.off 0 (fun hmem => Set.disjoint_left.1 hres hmem (by simp [reserved]))
    (by norm_num) h.books.rootApart.1.symm
  have hlive : ∀ {j}, j ≠ i → slotLive (d' root) j = true → slotLive (d root) j = true := by
    intro j hj hl
    rwa [(ht.slots j hj).live] at hl
  refine ⟨⟨by rw [h0]; exact h.books.boot, h.books.size, h.books.fits, h.books.rootApart, ?_, ?_, ?_⟩,
    ?_, ?_, ?_, ?_⟩
  · intro j hl
    by_cases hj : j = i
    · subst hj
      exact (ht.fits hl).1
    · rw [(ht.slots j hj).name (h.books.named j (hlive hj hl))]
      exact h.books.named j (hlive hj hl)
  · intro j hl
    by_cases hj : j = i
    · subst hj
      exact ⟨(ht.fits hl).2.1, (ht.fits hl).2.2.1⟩
    · rw [(ht.slots j hj).blk, (ht.slots j hj).clusters]
      exact h.books.extents j (hlive hj hl)
  · intro j hl
    by_cases hj : j = i
    · subst hj
      exact (ht.fits hl).2.2.2
    · rw [(ht.slots j hj).len]
      exact h.books.lengths j (hlive hj hl)
  · rw [hcat]
    refine h.shields.update hi _ ?_ ?_ ?_ ?_
    · intro c hc
      exact ht.marks c (h.shields.reserves hc) fun e he hmem =>
        Set.disjoint_left.1 (h.shields.clear he) hmem hc
    · intro j f hj hf c hc
      exact ht.marks c (h.shields.marks hj hf hc) fun e he hmem =>
        Set.disjoint_left.1 (h.shields.apart hj (hne hj) hf he) hc hmem
    · intro e he
      rcases ht.held e he with hold | rfl
      · exact h.shields.clear hold
      · exact hres
    · intro e he j f hj hf
      rcases ht.held e he with hold | rfl
      · exact ⟨(h.shields.apart hj (hne hj) hf hold).symm, fun hkey =>
          hne hj (h.shields.keys hj hf hold hkey)⟩
      · exact hrun j f hj hf
  · intro j hj
    rw [(ht.slots j (hne hj)).live]
    exact h.live j hj
  · intro j hj
    exact (h.slots j hj).trans (ht.slots j (hne hj))
  · intro j hj e he c hc
    rw [hother (hne hj)] at he
    have hclear := h.shields.clear he
    rw [ht.off c (fun hmem => Set.disjoint_left.1 (hrun j e hj he).1 hmem hc) ?_ ?_]
    · exact h.data j hj e he c hc
    · rintro rfl
      exact Set.disjoint_left.1 hclear hc (by simp [reserved])
    · rintro rfl
      exact Set.disjoint_left.1 hclear hc (by simp [reserved])

end Guards

/-! ## What a put touches -/

section Put

variable {root sects : ℕ} {name : CStr} {src : List UInt8} {p : PutPlan}

/-- Marking the run takes no mark away. -/
theorem PutPlan.Ok.marks_sub {d : Disk Sector} (hp : p.Ok name src d root sects)
    (hfit : p.fblk + p.nclus ≤ 4096) : marks (d 1) ⊆ marks p.map := by
  cases hnew : p.newRun with
  | true =>
    obtain ⟨-, hmap, -⟩ := hp.run hnew
    intro c hc
    rw [hmap, mem_marks_setRun hfit]
    exact Or.inr hc
  | false =>
    rw [(hp.inPlace hnew).2.2.1]

/-- Releasing takes away the marks of the old clusters only. -/
theorem PutPlan.Ok.freed_sub {d : Disk Sector} (hp : p.Ok name src d root sects)
    (hfit : p.fblk + p.nclus ≤ 4096) (hold : p.oldBlk + p.oldNclus ≤ 4096) {c : ℕ}
    (hc : c ∈ marks (d 1)) (hnot : c ∉ Set.Ico p.oldBlk (p.oldBlk + p.oldNclus)) :
    c ∈ marks p.freedMap := by
  rw [Set.mem_Ico, not_and_or] at hnot
  rw [PutPlan.freedMap]
  split
  · rw [mem_marks_freeRun hold]
    exact ⟨by omega, hp.marks_sub hfit hc⟩
  · rename_i hplace
    have hle := (hp.inPlace (Bool.eq_false_of_not_eq_true hplace)).2.2.2
    rw [mem_marks_freeRun (by omega)]
    exact ⟨by omega, hp.marks_sub hfit hc⟩

variable {dev : Dev}

/-- Where the disk of each outcome differs from the old one. -/
theorem PutOutcome.reach {code : ℤ} {d' : Disk Sector} (hp : p.Ok name src dev.disk root sects)
    (hbooks : Books dev.capacity dev.disk root sects)
    (hres : Disjoint (Set.Ico p.fblk (p.fblk + p.nclus)) (reserved root))
    (hout : PutOutcome p name src dev code d') :
    (∀ a, a ∉ Set.Ico p.fblk (p.fblk + p.nclus) → a ≠ 1 → a ≠ root → d' a = dev.disk a) ∧
      (d' root = dev.disk root ∨ d' root = p.newDir name src.length) ∧
      ∀ c ∈ marks (dev.disk 1),
        (p.existing = true → c ∉ Set.Ico p.oldBlk (p.oldBlk + p.oldNclus)) → c ∈ marks (d' 1) := by
  obtain ⟨hr0, hr1⟩ := hbooks.rootApart
  obtain ⟨-, hfit⟩ := hp.run_fits hbooks
  have hsize := hbooks.size
  have hsub := hp.marks_sub (show p.fblk + p.nclus ≤ 4096 by omega)
  have hwrote : ∀ k ≤ p.nclus, ∀ a, a ∉ Set.Ico p.fblk (p.fblk + p.nclus) →
      wrote dev.disk p.fblk src 0 k a = dev.disk a := by
    intro k hk a ha
    rw [Set.mem_Ico, not_and_or] at ha
    exact wrote_off (by omega)
  have hbook : ∀ a ∈ reserved root, a ∉ Set.Ico p.fblk (p.fblk + p.nclus) :=
    fun a ha hmem => Set.disjoint_left.1 hres hmem ha
  have h1 : 1 ∈ reserved root := by simp [reserved]
  have hroot : root ∈ reserved root := by simp [reserved]
  have hdata : ∀ k ≤ p.nclus,
      (∀ a, a ∉ Set.Ico p.fblk (p.fblk + p.nclus) → a ≠ 1 → a ≠ root →
        wrote dev.disk p.fblk src 0 k a = dev.disk a) ∧
      (wrote dev.disk p.fblk src 0 k root = dev.disk root ∨
        wrote dev.disk p.fblk src 0 k root = p.newDir name src.length) ∧
      ∀ c ∈ marks (dev.disk 1), (p.existing = true → c ∉ Set.Ico p.oldBlk (p.oldBlk + p.oldNclus)) →
        c ∈ marks (wrote dev.disk p.fblk src 0 k 1) := by
    intro k hk
    refine ⟨fun a ha _ _ => hwrote k hk a ha, Or.inl (hwrote k hk root (hbook root hroot)), ?_⟩
    intro c hc _
    rw [hwrote k hk 1 (hbook 1 h1)]
    exact hc
  cases hout with
  | data k hk _ => exact hdata k (le_of_lt hk)
  | map _ _ => exact hdata p.nclus (le_refl _)
  | dir d _ hd =>
    have hoff : ∀ a, a ∉ Set.Ico p.fblk (p.fblk + p.nclus) → a ≠ 1 →
        p.marked src dev.disk a = dev.disk a := by
      intro a ha ha1
      rw [PutPlan.marked, Function.update_of_ne ha1, hwrote _ (le_refl _) a ha]
    rcases hd with rfl | ⟨-, rfl⟩
    · refine ⟨fun a ha ha1 _ => hoff a ha ha1, Or.inl (hoff root (hbook root hroot) hr1), ?_⟩
      intro c hc _
      rw [PutPlan.marked, Function.update_self]
      exact hsub hc
    · refine ⟨fun a ha ha1 _ => ?_, Or.inl ?_, ?_⟩
      · rw [Function.update_of_ne ha1]
        exact hoff a ha ha1
      · rw [Function.update_of_ne hr1]
        exact hoff root (hbook root hroot) hr1
      · intro c hc _
        rw [Function.update_self, hp.oldMap]
        exact hc
  | release _ _ =>
    refine ⟨fun a ha ha1 har => ?_, Or.inr ?_, fun c hc _ => ?_⟩
    · rw [PutPlan.switched, hp.root_eq, Function.update_of_ne har, PutPlan.marked,
        Function.update_of_ne ha1, hwrote _ (le_refl _) a ha]
    · rw [PutPlan.switched, hp.root_eq, Function.update_self]
    · rw [PutPlan.switched, hp.root_eq, Function.update_of_ne hr1.symm, PutPlan.marked,
        Function.update_self]
      exact hsub hc
  | done d _ hd =>
    have hswitched : ∀ a, a ∉ Set.Ico p.fblk (p.fblk + p.nclus) → a ≠ 1 → a ≠ root →
        p.switched name src dev.disk a = dev.disk a := by
      intro a ha ha1 har
      rw [PutPlan.switched, hp.root_eq, Function.update_of_ne har, PutPlan.marked,
        Function.update_of_ne ha1, hwrote _ (le_refl _) a ha]
    split at hd
    · rename_i hrel
      subst hd
      refine ⟨fun a ha ha1 har => ?_, Or.inr ?_, fun c hc hnot => ?_⟩
      · rw [PutPlan.released, Function.update_of_ne ha1]
        exact hswitched a ha ha1 har
      · rw [PutPlan.released, Function.update_of_ne hr1, PutPlan.switched, hp.root_eq,
          Function.update_self]
      · rw [PutPlan.released, Function.update_self]
        obtain ⟨hfind, -, hblk, hclus⟩ := hp.old hrel.1
        have hext := (hbooks.extents p.slot (rsFindSlot_some hfind).1).2
        exact hp.freed_sub (by omega) (by rw [hblk, hclus]; omega) hc (hnot hrel.1)
    · subst hd
      refine ⟨hswitched, Or.inr ?_, fun c hc _ => ?_⟩
      · rw [PutPlan.switched, hp.root_eq, Function.update_self]
      · rw [PutPlan.switched, hp.root_eq, Function.update_of_ne hr1.symm, PutPlan.marked,
          Function.update_self]
        exact hsub hc

/-- **A put touches its slot and its run.** -/
theorem PutOutcome.touches {code : ℤ} {d' : Disk Sector} (hp : p.Ok name src dev.disk root sects)
    (hbooks : Books dev.capacity dev.disk root sects) (hne : name.bytes ≠ [])
    (hres : Disjoint (Set.Ico p.fblk (p.fblk + p.nclus)) (reserved root))
    (hout : PutOutcome p name src dev code d') :
    Touches root sects (foldName name.bytes) dev.disk d' p.slot
      (Set.Ico p.fblk (p.fblk + p.nclus)) := by
  obtain ⟨hoff, hdir, hmarks⟩ := hout.reach hp hbooks hres
  obtain ⟨h3, hfit⟩ := hp.run_fits hbooks
  refine ⟨hoff, fun j hj => ?_, fun c hc hnot => hmarks c hc fun hex hmem => ?_, fun e he => ?_,
    fun hlive => ?_⟩
  · rcases hdir with hdir | hdir
    · rw [hdir]
      exact sameSlot_refl _ j
    · rw [hdir]
      exact hp.newDir_same hj
  · obtain ⟨hfind, -, hblk, hclus⟩ := hp.old hex
    rw [hblk, hclus] at hmem
    exact hnot _ (catalogOf_live (rsFindSlot_some hfind).1) hmem
  · rcases hdir with hdir | hdir
    · rw [hdir] at he
      exact Or.inl he
    · rw [hdir, hp.catalog hbooks hfit, Function.update_self, if_neg hne] at he
      exact Or.inr (Option.some.inj he).symm
  · rcases hdir with hdir | hdir
    · rw [hdir] at hlive ⊢
      exact ⟨hbooks.named _ hlive, (hbooks.extents _ hlive).1, (hbooks.extents _ hlive).2,
        hbooks.lengths _ hlive⟩
    · rw [hdir] at hlive ⊢
      exact hp.slot_fits hbooks ⟨h3, hfit⟩ hlive

/-- **A put keeps what is to be kept**, unless it is about one of these files. -/
theorem Guards.put {kept : Set (Fin 8)} {d₀ : Disk Sector}
    (h : Guards kept d₀ dev.capacity dev.disk root sects) (src : List UInt8) (hne : name.bytes ≠ [])
    (hkey : ∀ i ∈ kept, foldName (slotName (dev.disk root) i) ≠ foldName name.bytes) :
    Guards kept d₀ (rsPutFile name src dev).2.capacity (rsPutFile name src dev).2.disk root sects ∧
      ((rsPutFile name src dev).2.disk root = dev.disk root ∨
        ∃ p : PutPlan, p.Ok name src dev.disk root sects ∧
          (rsPutFile name src dev).2.disk root = p.newDir name src.length) := by
  unfold rsPutFile
  cases hplan : rsPutPlan name src dev with
  | error e => exact ⟨h, Or.inl rfl⟩
  | ok p =>
    have hp := rsPutPlan_ok h.books hplan
    obtain ⟨hout, hcap, -⟩ := rsPutWrites_outcome hp h.books
    dsimp only
    have hslot : p.slot ∉ kept := by
      intro hmem
      cases hex : p.existing with
      | true => exact hkey p.slot hmem (rsFindSlot_some (hp.old hex).1).2
      | false =>
        have hlive := h.live p.slot hmem
        rw [(hp.fresh hex).2] at hlive
        cases hlive
    have hkeys : ∀ j f, j ∈ kept → catalogOf (dev.disk root) j = some f →
        f.key ≠ foldName name.bytes := by
      intro j f hj hf
      rw [(catalogOf_some hf).2]
      exact hkey j hj
    have hrun : Disjoint (Set.Ico p.fblk (p.fblk + p.nclus)) (reserved root) ∧
        ∀ j f, j ∈ kept → catalogOf (dev.disk root) j = some f →
          Disjoint (Set.Ico p.fblk (p.fblk + p.nclus)) f.blocks := by
      cases hnew : p.newRun with
      | true =>
        obtain ⟨-, -, hfree⟩ := rsFindRun_some (hp.run hnew).1
        have hdisj : Disjoint (Set.Ico p.fblk (p.fblk + p.nclus)) (marks (dev.disk 1)) :=
          Set.disjoint_left.2 fun c hc => hfree c hc.1 hc.2
        exact ⟨hdisj.mono_right h.shields.reserves,
          fun j f hj hf => hdisj.mono_right (h.shields.marks hj hf)⟩
      | false =>
        obtain ⟨hex, hblk, -, hle⟩ := hp.inPlace hnew
        obtain ⟨hfind, -, hold, hclus⟩ := hp.old hex
        have hcat := catalogOf_live (rsFindSlot_some hfind).1
        have hsub : Set.Ico p.fblk (p.fblk + p.nclus) ⊆ Set.Ico (slotBlk (dev.disk root) p.slot)
            (slotBlk (dev.disk root) p.slot + slotClusters (dev.disk root) p.slot) := by
          rw [hblk, hold]
          exact Set.Ico_subset_Ico_right (by omega)
        refine ⟨(h.shields.clear hcat).mono_left hsub, fun j f hj hf => ?_⟩
        have hjne : j ≠ p.slot := by
          rintro rfl
          exact hslot hj
        exact ((h.shields.apart hj hjne hf hcat).mono_right hsub).symm
    have ht := hout.touches hp h.books hne hrun.1
    rw [hcap]
    refine ⟨h.touch hslot hrun.1 (fun j f hj hf => ⟨hrun.2 j f hj hf, hkeys j f hj hf⟩) ht, ?_⟩
    rcases (hout.reach hp h.books hrun.1).2.1 with hdir | hdir
    · exact Or.inl hdir
    · exact Or.inr ⟨p, hp, hdir⟩

end Put

/-! ## What a deletion touches -/

section Del

variable {root sects : ℕ} {dev : Dev} {kept : Set (Fin 8)} {d₀ : Disk Sector}

/-- **A deletion keeps what is to be kept**, unless it is about one of these files. -/
theorem Guards.del (h : Guards kept d₀ dev.capacity dev.disk root sects) (name : CStr)
    (hkey : ∀ i ∈ kept, foldName (slotName (dev.disk root) i) ≠ foldName name.bytes) :
    Guards kept d₀ (rsDelFile name dev).2.capacity (rsDelFile name dev).2.disk root sects ∧
      ((rsDelFile name dev).2.disk root = dev.disk root ∨
        ∃ i, rsFindSlot (dev.disk root) name.bytes = some i ∧
          (rsDelFile name dev).2.disk root = clearSlot (dev.disk root) i) := by
  obtain ⟨hout, hcap, -⟩ := rsDelFile_outcome name h.books
  obtain ⟨hr0, hr1⟩ := h.books.rootApart
  rw [hcap]
  generalize (rsDelFile name dev).2.disk = d' at hout ⊢
  generalize (rsDelFile name dev).1 = code at hout
  have hsame : d' = dev.disk → Guards kept d₀ dev.capacity d' root sects ∧
      (d' root = dev.disk root ∨ ∃ i, rsFindSlot (dev.disk root) name.bytes = some i ∧
        d' root = clearSlot (dev.disk root) i) := by
    rintro rfl
    exact ⟨h, Or.inl rfl⟩
  have hslot : ∀ {i}, rsFindSlot (dev.disk root) name.bytes = some i → i ∉ kept :=
    fun hfind hmem => hkey _ hmem (rsFindSlot_some hfind).2
  have hmarks : ∀ {i}, rsFindSlot (dev.disk root) name.bytes = some i → ∀ c ∈ marks (dev.disk 1),
      (∀ e, catalogOf (dev.disk root) i = some e → c ∉ e.blocks) →
        c ∈ marks (deletedMap dev.disk root i) := by
    intro i hfind c hc hnot
    obtain ⟨hlive, -⟩ := rsFindSlot_some hfind
    have hext := (h.books.extents i hlive).2
    have hsize := h.books.size
    rw [deletedMap, mem_marks_freeRun (by omega)]
    exact ⟨fun hmem => hnot _ (catalogOf_live hlive) hmem, hc⟩
  have htouch : ∀ {i d''}, rsFindSlot (dev.disk root) name.bytes = some i →
      Touches root sects [] dev.disk d'' i ∅ → Guards kept d₀ dev.capacity d'' root sects := by
    intro i d'' hfind ht
    refine h.touch (hslot hfind) (Set.empty_disjoint _) (fun j f hj hf => ?_) ht
    refine ⟨Set.empty_disjoint _, fun hnil => ?_⟩
    obtain ⟨hlive, rfl⟩ := catalogOf_some hf
    exact slotName_ne_nil hlive (List.map_eq_nil_iff.1 hnil)
  cases hout with
  | refused _ _ => exact hsame rfl
  | map _ => exact hsame rfl
  | dir i _ hfind _ =>
    have hdir : Function.update dev.disk 1 (deletedMap dev.disk root i) root = dev.disk root :=
      Function.update_of_ne hr1 _ _
    refine ⟨htouch hfind ⟨fun a _ ha1 _ => Function.update_of_ne ha1 _ _, fun j _ => ?_, ?_, ?_, ?_⟩,
      Or.inl hdir⟩
    · rw [hdir]
      exact sameSlot_refl _ j
    · rw [Function.update_self]
      exact hmarks hfind
    · rw [hdir]
      exact fun e he => Or.inl he
    · rw [hdir]
      exact fun hlive => ⟨h.books.named _ hlive, (h.books.extents _ hlive).1,
        (h.books.extents _ hlive).2, h.books.lengths _ hlive⟩
  | done i hfind =>
    have hdir : deletedDisk dev.disk root i root = clearSlot (dev.disk root) i :=
      Function.update_self ..
    refine ⟨htouch hfind ⟨fun a _ ha1 har => ?_, fun j hj => ?_, ?_, ?_, ?_⟩,
      Or.inr ⟨i, hfind, hdir⟩⟩
    · rw [deletedDisk, Function.update_of_ne har, Function.update_of_ne ha1]
    · rw [hdir]
      exact sameSlot_clearSlot _ hj
    · rw [deletedDisk, Function.update_of_ne hr1.symm, Function.update_self]
      exact hmarks hfind
    · intro e he
      rw [hdir] at he
      have hlive := (catalogOf_some he).1
      rw [slotLive_clearSlot] at hlive
      cases hlive
    · intro hlive
      rw [hdir, slotLive_clearSlot] at hlive
      cases hlive

end Del

end ZealBringup.RedSea
