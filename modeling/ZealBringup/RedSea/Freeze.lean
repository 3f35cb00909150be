import ZealBringup.RedSea.Faults
import ZealBringup.RedSea.Guard
import ZealBringup.RedSea.Host

/-!
# Preparing for the freeze

What `kernel_stub.c` does to prepare a RedSea volume for the freeze: the five files of
`g_rs_catalog`, the four old demos that may go to make room for them, and the functions
`rs_file_exists`, `rs_evict_one_stale`, `rs_freeze_missing`, `rs_seed_catalog` and
`rs_prepare_freeze_catalog`.  The texts of the files are generated when the kernel is built;
here they are a parameter.

Whatever fills the eight slots and whichever writes fail, the preparation leaves every file as it
is that is neither one of the old demos nor an empty file of the catalog, and it reports success
only when the catalog is there and the files still to come have room.

* `needed_fill`, `needed_clear` — the slots in use and those still needed are never more.
* `rsPrepareFreezeCatalog_keeps` — the whole.
-/

set_option maxRecDepth 10000

namespace ZealBringup.RedSea

open Store

/-! ## Names -/

/-- The bytes of a name. -/
def ascii (name : List Char) : List UInt8 := name.map fun c => UInt8.ofNat c.toNat

def addLibName : CStr := ⟨ascii ['A', 'd', 'd', 'L', 'i', 'b', '.', 'Z', 'C'], by decide⟩

def useAddName : CStr := ⟨ascii ['U', 's', 'e', 'A', 'd', 'd', '.', 'Z', 'C'], by decide⟩

def docLibName : CStr := ⟨ascii ['D', 'o', 'c', 'L', 'i', 'b', '.', 'Z', 'C'], by decide⟩

def notesName : CStr := ⟨ascii ['N', 'o', 't', 'e', 's', '.', 'Z', 'C'], by decide⟩

def memSortName : CStr := ⟨ascii ['M', 'e', 'm', 'S', 'o', 'r', 't', '.', 'Z', 'C'], by decide⟩

def keepName : CStr := ⟨ascii ['K', 'e', 'e', 'p'], by decide⟩

def hiName : CStr := ⟨ascii ['H', 'i', '.', 'Z', 'C'], by decide⟩

/-- `legacy`: the demos that may be evicted. -/
def legacy : List CStr :=
  [⟨ascii ['D', 'i', 's', 'k', 'L', 'a', 't', '.', 'Z', 'C'], by decide⟩,
    ⟨ascii ['L', 'a', 't', 't', 'i', 'c', 'e', '.', 'Z', 'C'], by decide⟩,
    ⟨ascii ['N', 'e', 't', 'O', 'f', 'D', 'o', 't', 's', '.', 'Z', 'C'], by decide⟩,
    ⟨ascii ['L', 'i', 'n', 'e', 's', '.', 'Z', 'C'], by decide⟩]

/-- The texts `ADDLIB_ZC`, `USEADD_ZC`, `DOCLIB_ZC`, `NOTES_ZC` and `MEMSORT_ZC`. -/
structure CatalogTexts where
  addlib : CStr
  useadd : CStr
  doclib : CStr
  notes : CStr
  memsort : CStr

/-- `struct rs_catalog_ent`, without the flag of the demo loop. -/
structure RsCatalogEnt where
  name : CStr
  src : CStr

/-- `g_rs_catalog`. -/
def rsCatalog (texts : CatalogTexts) : List RsCatalogEnt :=
  [⟨addLibName, texts.addlib⟩, ⟨useAddName, texts.useadd⟩, ⟨docLibName, texts.doclib⟩,
    ⟨notesName, texts.notes⟩, ⟨memSortName, texts.memsort⟩]

/-! ## Preparing -/

/-- `rs_file_exists`: the length of the file, if there is one. -/
def rsFileExists (dev : Dev) (name : CStr) : Option ℕ :=
  match rsReadRoot dev with
  | .error _ => none
  | .ok r => (rsFindSlot r.dir name.bytes).map (slotLen r.dir)

/-- `rs_evict_one_stale`. -/
def rsEvictOneStale (dev : Dev) : ℤ × Dev :=
  match rsReadRoot dev with
  | .error _ => (-1, dev)
  | .ok _ =>
      match legacy.find? fun name => (rsFileExists dev name).isSome with
      | none => (-1, dev)
      | some name => rsDelFile name dev

/-- `rs_root_used`. -/
def rsRootUsed (dir : Sector) : ℕ := (List.finRange 8).countP fun i => slotLive dir i

/-- How many of the names are not there. -/
def missing (dev : Dev) (names : List CStr) : ℕ :=
  names.countP fun name => (rsFileExists dev name).isNone

/-- `rs_freeze_missing`. -/
def rsFreezeMissing (texts : CatalogTexts) (dev : Dev) : ℕ :=
  missing dev ((rsCatalog texts).map RsCatalogEnt.name ++ [keepName, hiName])

/-- The loop of `rs_prepare_freeze_catalog`, with `left` evictions to go: whether there is
room. -/
def freezeLoop (texts : CatalogTexts) : ℕ → Sector → Dev → Bool × Dev
  | left, dir, dev =>
      if rsRootUsed dir + rsFreezeMissing texts dev ≤ 8 then (true, dev)
      else
        match left with
        | 0 => (false, dev)
        | left + 1 =>
            match rsEvictOneStale dev with
            | (code, dev) =>
                if code ≠ 0 then (false, dev)
                else
                  match rsReadRoot dev with
                  | .error _ => (false, dev)
                  | .ok r => freezeLoop texts left r.dir dev

/-- The tries of `rs_seed_catalog` for one entry, `left` of them. -/
def seedTries (e : RsCatalogEnt) : ℕ → Dev → Dev
  | 0, dev => dev
  | left + 1, dev =>
      match rsPutFile e.name e.src.bytes dev with
      | (code, dev) =>
          if code = 0 then dev
          else
            match rsEvictOneStale dev with
            | (code, dev) => if code ≠ 0 then dev else seedTries e left dev

/-- One turn of the loop of `rs_seed_catalog`. -/
def seedEntry (dev : Dev) (e : RsCatalogEnt) : Dev :=
  match rsFileExists dev e.name with
  | some len => if len > 0 then dev else seedTries e 4 dev
  | none => seedTries e 4 dev

/-- `rs_seed_catalog`. -/
def rsSeedCatalog (texts : CatalogTexts) (dev : Dev) : ℤ × Dev :=
  match rsReadRoot dev with
  | .error _ => (-1, dev)
  | .ok _ => (0, (rsCatalog texts).foldl seedEntry dev)

/-- `rs_prepare_freeze_catalog`. -/
def rsPrepareFreezeCatalog (texts : CatalogTexts) (dev : Dev) : ℤ × Dev :=
  match rsReadRoot dev with
  | .error _ => (1, dev)
  | .ok r =>
      match freezeLoop texts 4 r.dir dev with
      | (false, dev) => (-1, dev)
      | (true, dev) =>
          match rsSeedCatalog texts dev with
          | (code, dev) =>
              if code ≠ 0 then (-1, dev)
              else if (rsCatalog texts).all fun e => (rsFileExists dev e.name).isSome then (0, dev)
              else (-1, dev)

open CrashDisk Extents

/-! ## Slots in use and slots still needed -/

/-- The slots in use, and one more for each of the names that is not there. -/
def needed (dir : Sector) (names : List CStr) : ℕ :=
  rsRootUsed dir + names.countP fun name => (rsFindSlot dir name.bytes).isNone

section Needed

variable {dir dir' : Sector} {i : Fin 8} {names : List CStr}

theorem rsRootUsed_eq (dir : Sector) (i : Fin 8) : rsRootUsed dir =
    ((List.finRange 8).erase i).countP (fun j => slotLive dir j) +
      if slotLive dir i = true then 1 else 0 := by
  rw [rsRootUsed, (List.perm_cons_erase (List.mem_finRange i)).countP_eq, List.countP_cons]

theorem others_eq (h : ∀ j, j ≠ i → SameSlot dir dir' j) :
    ((List.finRange 8).erase i).countP (fun j => slotLive dir' j) =
      ((List.finRange 8).erase i).countP fun j => slotLive dir j := by
  refine List.countP_congr fun j hj => ?_
  rw [(h j ((List.nodup_finRange 8).mem_erase_iff.1 hj).1).live]

/-- A name that was found is found again if its slot is there with the same name. -/
theorem find_isNone_mono {name : CStr}
    (h : ∀ j, slotLive dir j = true → foldName (slotName dir j) = foldName name.bytes →
      ∃ k, slotLive dir' k = true ∧ foldName (slotName dir' k) = foldName name.bytes) :
    (rsFindSlot dir' name.bytes).isNone = true → (rsFindSlot dir name.bytes).isNone = true := by
  rw [Option.isNone_iff_eq_none, Option.isNone_iff_eq_none, rsFindSlot_none_iff,
    rsFindSlot_none_iff]
  intro hnone j hlive hkey
  obtain ⟨k, hlive', hkey'⟩ := h j hlive hkey
  exact hnone k hlive' hkey'

/-- **A slot is emptied** that none of the names is about. -/
theorem needed_clear (hnamed : ∀ j, slotLive dir j = true → (slotName dir j).length ≤ 37)
    (hsame : ∀ j, j ≠ i → SameSlot dir dir' j) (hdead : slotLive dir' i = false)
    (hkey : ∀ name ∈ names, slotLive dir i = true →
      foldName (slotName dir i) ≠ foldName name.bytes) : needed dir' names ≤ needed dir names := by
  have hmissing : (names.countP fun name => (rsFindSlot dir' name.bytes).isNone) ≤
      names.countP fun name => (rsFindSlot dir name.bytes).isNone := by
    refine List.countP_mono_left fun name hmem => find_isNone_mono fun j hlive hname => ?_
    have hj : j ≠ i := by
      rintro rfl
      exact hkey name hmem hlive hname
    refine ⟨j, ?_, ?_⟩
    · rw [(hsame j hj).live]
      exact hlive
    · rw [(hsame j hj).name (hnamed j hlive)]
      exact hname
  rw [needed, needed, rsRootUsed_eq dir i, rsRootUsed_eq dir' i, others_eq hsame, hdead,
    if_neg Bool.false_ne_true]
  omega

/-- **A slot is filled** under one of the names, which was not there or had this slot. -/
theorem needed_fill {name : CStr} (hname : name ∈ names)
    (hnamed : ∀ j, slotLive dir j = true → (slotName dir j).length ≤ 37)
    (hsame : ∀ j, j ≠ i → SameSlot dir dir' j) (hlive : slotLive dir' i = true)
    (hkey : foldName (slotName dir' i) = foldName name.bytes)
    (hold : rsFindSlot dir name.bytes = some i ∨
      rsFindSlot dir name.bytes = none ∧ slotLive dir i = false) :
    needed dir' names ≤ needed dir names := by
  have hmono : ∀ n : CStr, (rsFindSlot dir' n.bytes).isNone = true →
      (rsFindSlot dir n.bytes).isNone = true := by
    intro n
    refine find_isNone_mono fun j hl hn => ?_
    by_cases hj : j = i
    · subst hj
      rcases hold with hfind | ⟨-, hdead⟩
      · exact ⟨j, hlive, hkey.trans ((rsFindSlot_some hfind).2.symm.trans hn)⟩
      · rw [hdead] at hl
        cases hl
    · refine ⟨j, ?_, ?_⟩
      · rw [(hsame j hj).live]
        exact hl
      · rw [(hsame j hj).name (hnamed j hl)]
        exact hn
  have hfound : (rsFindSlot dir' name.bytes).isNone = false := by
    rw [Option.isNone_eq_false_iff, Option.isSome_iff_ne_none]
    exact fun hnone => rsFindSlot_none_iff.1 hnone i hlive hkey
  rw [needed, needed, rsRootUsed_eq dir i, rsRootUsed_eq dir' i, others_eq hsame, if_pos hlive]
  rcases hold with hfind | ⟨hnone, hdead⟩
  · rw [if_pos (rsFindSlot_some hfind).1]
    have hmissing := List.countP_mono_left (l := names) fun n _ => hmono n
    omega
  · -- The slot is one more, and the name is one less of those that are missing.
    rw [hdead, if_neg Bool.false_ne_true]
    obtain ⟨before, after, rfl⟩ := List.append_of_mem hname
    have h1 := List.countP_mono_left (l := before) fun n _ => hmono n
    have h2 := List.countP_mono_left (l := after) fun n _ => hmono n
    simp only [List.countP_append, List.countP_cons, hfound, hnone, Option.isNone_none, if_true,
      Bool.false_eq_true, if_false]
    omega

end Needed

/-! ## The files to be kept -/

/-- The names that the freeze needs. -/
def frozenNames : List CStr :=
  [addLibName, useAddName, docLibName, notesName, memSortName, keepName, hiName]

/-- A file that has to stay: it is not one of the demos, and if it is one of the catalog it is
not empty. -/
def UserFile (texts : CatalogTexts) (d : Disk Sector) (root : ℕ) (i : Fin 8) : Prop :=
  slotLive (d root) i = true ∧
    (∀ name ∈ legacy, foldName (slotName (d root) i) ≠ foldName name.bytes) ∧
    ∀ e ∈ rsCatalog texts, foldName (slotName (d root) i) = foldName e.name.bytes →
      slotLen (d root) i ≠ 0

theorem legacy_apart : ∀ name ∈ legacy, ∀ other ∈ frozenNames,
    foldName name.bytes ≠ foldName other.bytes := by
  decide

theorem frozenNames_eq (texts : CatalogTexts) :
    (rsCatalog texts).map RsCatalogEnt.name ++ [keepName, hiName] = frozenNames := rfl

theorem frozenNames_ne_nil : ∀ name ∈ frozenNames, name.bytes ≠ [] := by
  decide

theorem mem_frozenNames {texts : CatalogTexts} {e : RsCatalogEnt} (he : e ∈ rsCatalog texts) :
    e.name ∈ frozenNames := by
  rw [← frozenNames_eq texts]
  exact List.mem_append_left _ (List.mem_map_of_mem he)

/-! ## The steps -/

/-- Of a step of the preparation: the files are still guarded, and no more slots are needed. -/
structure Keeps (kept : Set (Fin 8)) (d₀ : Disk Sector) (root sects : ℕ) (dev dev' : Dev) :
    Prop where
  guards : Guards kept d₀ dev'.capacity dev'.disk root sects
  needed : needed (dev'.disk root) frozenNames ≤ needed (dev.disk root) frozenNames

section Steps

variable {kept : Set (Fin 8)} {d₀ : Disk Sector} {root sects : ℕ} {dev dev' dev'' : Dev}

theorem Keeps.refl (h : Guards kept d₀ dev.capacity dev.disk root sects) :
    Keeps kept d₀ root sects dev dev :=
  ⟨h, le_refl _⟩

theorem Keeps.trans (h : Keeps kept d₀ root sects dev dev')
    (h' : Keeps kept d₀ root sects dev' dev'') : Keeps kept d₀ root sects dev dev'' :=
  ⟨h'.guards, h'.needed.trans h.needed⟩

theorem Guards.name (h : Guards kept d₀ dev.capacity dev.disk root sects) {i : Fin 8}
    (hi : i ∈ kept) : slotName (dev.disk root) i = slotName (d₀ root) i := by
  have hback : SameSlot (dev.disk root) (d₀ root) i := fun k hk => (h.slots i hi k hk).symm
  exact (hback.name (h.books.named i (h.live i hi))).symm

theorem Books.fileExists (h : Books dev.capacity dev.disk root sects) (name : CStr) :
    rsFileExists dev name =
      (rsFindSlot (dev.disk root) name.bytes).map (slotLen (dev.disk root)) := by
  rw [rsFileExists, h.readRoot]

theorem Books.missing (h : Books dev.capacity dev.disk root sects) (names : List CStr) :
    missing dev names = names.countP fun name =>
      (rsFindSlot (dev.disk root) name.bytes).isNone := by
  rw [RedSea.missing]
  refine List.countP_congr fun name _ => ?_
  rw [h.fileExists, Option.isNone_map]

/-- **An eviction.** -/
theorem rsEvictOneStale_keeps (h : Guards kept d₀ dev.capacity dev.disk root sects)
    (hdemo : ∀ i ∈ kept, ∀ name ∈ legacy, foldName (slotName (d₀ root) i) ≠ foldName name.bytes) :
    Keeps kept d₀ root sects dev (rsEvictOneStale dev).2 := by
  rw [rsEvictOneStale, h.books.readRoot]
  dsimp only
  cases hfind : legacy.find? fun name => (rsFileExists dev name).isSome with
  | none => exact Keeps.refl h
  | some name =>
    have hmem := List.mem_of_find?_eq_some hfind
    obtain ⟨hguards, hdir⟩ := h.del name fun i hi => by
      rw [h.name hi]
      exact hdemo i hi name hmem
    refine ⟨hguards, ?_⟩
    rcases hdir with hdir | ⟨i, hslot, hdir⟩
    · show needed ((rsDelFile name dev).2.disk root) _ ≤ _
      rw [hdir]
    · show needed ((rsDelFile name dev).2.disk root) _ ≤ _
      rw [hdir]
      refine needed_clear h.books.named (fun j hj => sameSlot_clearSlot _ hj)
        (slotLive_clearSlot _ i) fun other hother _ hkey => ?_
      exact legacy_apart name hmem other hother ((rsFindSlot_some hslot).2.symm.trans hkey)

/-- **A put of one of the names**, that none of the files to be kept has. -/
theorem rsPutFile_keeps (h : Guards kept d₀ dev.capacity dev.disk root sects) {name : CStr}
    (src : List UInt8) (hname : name ∈ frozenNames) (hne : name.bytes ≠ [])
    (hkey : ∀ i ∈ kept, foldName (slotName (d₀ root) i) ≠ foldName name.bytes) :
    Keeps kept d₀ root sects dev (rsPutFile name src dev).2 := by
  obtain ⟨hguards, hdir⟩ := h.put src hne fun i hi => by
    rw [h.name hi]
    exact hkey i hi
  refine ⟨hguards, ?_⟩
  rcases hdir with hdir | ⟨p, hp, hdir⟩
  · rw [hdir]
  · rw [hdir]
    obtain ⟨-, hfit⟩ := hp.run_fits h.books
    obtain ⟨-, -, -, hlive⟩ := hp.newDir_slot h.books hfit
    refine needed_fill hname h.books.named (fun j hj => hp.newDir_same hj) (hlive hne).1
      (hlive hne).2.2 ?_
    cases hex : p.existing with
    | true => exact Or.inl (hp.old hex).1
    | false => exact Or.inr (hp.fresh hex)

theorem seedTries_keeps (hdemo : ∀ i ∈ kept, ∀ name ∈ legacy,
      foldName (slotName (d₀ root) i) ≠ foldName name.bytes) {e : RsCatalogEnt}
    (hname : e.name ∈ frozenNames) (hne : e.name.bytes ≠ [])
    (hkey : ∀ i ∈ kept, foldName (slotName (d₀ root) i) ≠ foldName e.name.bytes) (left : ℕ)
    (h : Guards kept d₀ dev.capacity dev.disk root sects) :
    Keeps kept d₀ root sects dev (seedTries e left dev) := by
  induction left generalizing dev with
  | zero => exact Keeps.refl h
  | succ left ih =>
    have hput := rsPutFile_keeps h e.src.bytes hname hne hkey
    rw [seedTries]
    generalize rsPutFile e.name e.src.bytes dev = res at hput ⊢
    obtain ⟨code, dev1⟩ := res
    dsimp only at hput ⊢
    split
    · exact hput
    · have hevict := rsEvictOneStale_keeps hput.guards hdemo
      generalize rsEvictOneStale dev1 = res at hevict ⊢
      obtain ⟨code', dev2⟩ := res
      dsimp only at hevict ⊢
      split
      · exact hput.trans hevict
      · exact (hput.trans hevict).trans (ih hevict.guards)

/-- A file of the catalog that is there and not empty is not seeded again, so a put is never
about a file to be kept. -/
theorem seedEntry_keeps (hdemo : ∀ i ∈ kept, ∀ name ∈ legacy,
      foldName (slotName (d₀ root) i) ≠ foldName name.bytes) {e : RsCatalogEnt}
    (hname : e.name ∈ frozenNames) (hne : e.name.bytes ≠ [])
    (hfull : ∀ i ∈ kept, foldName (slotName (d₀ root) i) = foldName e.name.bytes →
      slotLen (d₀ root) i ≠ 0) (h : Guards kept d₀ dev.capacity dev.disk root sects) :
    Keeps kept d₀ root sects dev (seedEntry dev e) := by
  -- A file to be kept that has the name is the one that is found.
  have hfound : ∀ i ∈ kept, foldName (slotName (d₀ root) i) = foldName e.name.bytes →
      ∃ len, rsFileExists dev e.name = some len ∧ len ≠ 0 := by
    intro i hi hkey
    have hcat := catalogOf_live (h.live i hi)
    rw [h.name hi] at hcat
    cases hfind : rsFindSlot (dev.disk root) e.name.bytes with
    | none =>
      have hno := rsFindSlot_none_iff.1 hfind i (h.live i hi)
      rw [h.name hi] at hno
      exact absurd hkey hno
    | some j =>
      obtain ⟨hlive, hkey'⟩ := rsFindSlot_some hfind
      have hij : i = j := h.shields.keys hi hcat (catalogOf_live hlive) (hkey.trans hkey'.symm)
      subst hij
      refine ⟨slotLen (dev.disk root) i, ?_, ?_⟩
      · rw [h.books.fileExists, hfind]
        rfl
      · rw [(h.slots i hi).len]
        exact hfull i hi hkey
  have htries : (rsFileExists dev e.name = none ∨ rsFileExists dev e.name = some 0) →
      Keeps kept d₀ root sects dev (seedTries e 4 dev) := by
    intro hempty
    refine seedTries_keeps hdemo hname hne (fun i hi hkey => ?_) 4 h
    obtain ⟨len, hlen, hpos⟩ := hfound i hi hkey
    rcases hempty with hnone | hzero
    · rw [hnone] at hlen
      cases hlen
    · rw [hzero] at hlen
      exact hpos (Option.some.inj hlen).symm
  rw [seedEntry]
  cases hlen : rsFileExists dev e.name with
  | none => exact htries (Or.inl hlen)
  | some len =>
    dsimp only
    split
    · exact Keeps.refl h
    · have h0 : len = 0 := by omega
      exact htries (Or.inr (by rw [hlen, h0]))

/-! ## The whole -/

theorem Books.freezeMissing (texts : CatalogTexts) (h : Books dev.capacity dev.disk root sects) :
    rsRootUsed (dev.disk root) + rsFreezeMissing texts dev =
      RedSea.needed (dev.disk root) frozenNames := by
  rw [rsFreezeMissing, frozenNames_eq, h.missing, RedSea.needed]

theorem freezeLoop_keeps (texts : CatalogTexts) (hdemo : ∀ i ∈ kept, ∀ name ∈ legacy,
      foldName (slotName (d₀ root) i) ≠ foldName name.bytes) (left : ℕ)
    (h : Guards kept d₀ dev.capacity dev.disk root sects) :
    Keeps kept d₀ root sects dev (freezeLoop texts left (dev.disk root) dev).2 ∧
      ((freezeLoop texts left (dev.disk root) dev).1 = true →
        RedSea.needed ((freezeLoop texts left (dev.disk root) dev).2.disk root) frozenNames ≤ 8) := by
  induction left generalizing dev with
  | zero =>
    rw [freezeLoop, h.books.freezeMissing texts]
    split
    · exact ⟨Keeps.refl h, fun _ => ‹_›⟩
    · exact ⟨Keeps.refl h, nofun⟩
  | succ left ih =>
    rw [freezeLoop, h.books.freezeMissing texts]
    split
    · exact ⟨Keeps.refl h, fun _ => ‹_›⟩
    · have hevict := rsEvictOneStale_keeps h hdemo
      generalize rsEvictOneStale dev = res at hevict ⊢
      obtain ⟨code, dev1⟩ := res
      dsimp only at hevict ⊢
      split
      · exact ⟨hevict, nofun⟩
      · rw [hevict.guards.books.readRoot]
        obtain ⟨hrest, hroom⟩ := ih hevict.guards
        exact ⟨hevict.trans hrest, hroom⟩

theorem foldl_seedEntry_keeps (hdemo : ∀ i ∈ kept, ∀ name ∈ legacy,
      foldName (slotName (d₀ root) i) ≠ foldName name.bytes) {es : List RsCatalogEnt}
    (hfull : ∀ e ∈ es, e.name ∈ frozenNames ∧ ∀ i ∈ kept,
      foldName (slotName (d₀ root) i) = foldName e.name.bytes → slotLen (d₀ root) i ≠ 0)
    (h : Guards kept d₀ dev.capacity dev.disk root sects) :
    Keeps kept d₀ root sects dev (es.foldl seedEntry dev) := by
  induction es generalizing dev with
  | nil => exact Keeps.refl h
  | cons e es ih =>
    obtain ⟨hname, hlen⟩ := hfull e List.mem_cons_self
    have hentry := seedEntry_keeps hdemo hname (frozenNames_ne_nil _ hname) hlen h
    exact hentry.trans (ih (fun e' he' => hfull e' (List.mem_cons_of_mem _ he')) hentry.guards)

end Steps

/-- What the preparation promises: the volume can still be read, the files of the user are as they
were, and after a success the catalog is there and there is room for the files still to come. -/
structure Prepared (texts : CatalogTexts) (root sects : ℕ) (dev : Dev) (code : ℤ) (dev' : Dev) :
    Prop where
  readable : rsReadRoot dev' = .ok ⟨dev'.disk root, root, sects⟩
  kept : ∀ i, UserFile texts dev.disk root i →
    SameSlot (dev.disk root) (dev'.disk root) i ∧ fileOf dev'.disk root i = fileOf dev.disk root i
  complete : code = 0 → ∀ e ∈ rsCatalog texts, (rsFileExists dev' e.name).isSome
  room : code = 0 → rsRootUsed (dev'.disk root) + missing dev' [keepName, hiName] ≤ 8

/-- **Preparing for the freeze keeps the files of the user.** -/
theorem rsPrepareFreezeCatalog_keeps (texts : CatalogTexts) (dev : Dev) (root sects : ℕ)
    (hvol : Volume dev.capacity dev.disk root sects) :
    Prepared texts root sects dev (rsPrepareFreezeCatalog texts dev).1
      (rsPrepareFreezeCatalog texts dev).2 := by
  have hguards : Guards {i | UserFile texts dev.disk root i} dev.disk dev.capacity dev.disk root
      sects := hvol.guards fun i hi => hi.1
  have hdemo : ∀ i ∈ {i | UserFile texts dev.disk root i}, ∀ name ∈ legacy,
      foldName (slotName (dev.disk root) i) ≠ foldName name.bytes := fun i hi => hi.2.1
  -- Every step keeps the files; only a success has more to show.
  have hkept : ∀ {code : ℤ} {dev' : Dev},
      Guards {i | UserFile texts dev.disk root i} dev.disk dev'.capacity dev'.disk root sects →
      (code = 0 → (∀ e ∈ rsCatalog texts, (rsFileExists dev' e.name).isSome) ∧
        rsRootUsed (dev'.disk root) + missing dev' [keepName, hiName] ≤ 8) →
      Prepared texts root sects dev code dev' := fun hg hdone =>
    ⟨hg.books.readRoot, fun i hi => ⟨hg.slots i hi, hg.file hi (hvol.named i hi.1)⟩,
      fun h0 => (hdone h0).1, fun h0 => (hdone h0).2⟩
  obtain ⟨hloop, hroom⟩ := freezeLoop_keeps texts hdemo 4 hguards
  unfold rsPrepareFreezeCatalog
  rw [hvol.books.readRoot]
  dsimp only
  generalize freezeLoop texts 4 (dev.disk root) dev = res at hloop hroom ⊢
  obtain ⟨_ | _, dev1⟩ := res
  · exact hkept hloop.guards fun h0 => absurd h0 (by norm_num)
  dsimp only at hloop hroom ⊢
  rw [rsSeedCatalog, hloop.guards.books.readRoot]
  dsimp only
  rw [if_neg (by norm_num)]
  have hseed : Keeps _ _ root sects dev1 ((rsCatalog texts).foldl seedEntry dev1) :=
    foldl_seedEntry_keeps hdemo
      (fun e he => ⟨mem_frozenNames he, fun i hi hkey => hi.2.2 e he hkey⟩) hloop.guards
  split
  · rename_i hall
    have hthere : ∀ e ∈ rsCatalog texts,
        (rsFileExists ((rsCatalog texts).foldl seedEntry dev1) e.name).isSome :=
      List.all_eq_true.1 hall
    refine hkept hseed.guards fun _ => ⟨hthere, ?_⟩
    -- No name of the catalog is missing: what is needed is for the other two.
    have hneeded := hseed.needed.trans (hroom rfl)
    rw [needed, ← hseed.guards.books.missing, ← frozenNames_eq texts, missing,
      List.countP_append, List.countP_eq_zero.2, Nat.zero_add] at hneeded
    · exact hneeded
    · intro name hname
      obtain ⟨e, he, rfl⟩ := List.mem_map.1 hname
      rw [Option.isNone_iff_eq_none]
      exact Option.isSome_iff_ne_none.1 (hthere e he)
  · exact hkept hseed.guards fun h0 => absurd h0 (by norm_num)

/-- Texts of one byte. -/
def shortTexts : CatalogTexts := ⟨nameA, nameA, nameA, nameA, nameA⟩

/-- A volume with one file of the user, on a device without errors. -/
def userDev : Dev := { failingDev with fails := fun _ => false }

/-- The preparation of that volume succeeds. -/
theorem rsPrepareFreezeCatalog_keeps_userDev :
    (rsPrepareFreezeCatalog shortTexts userDev).1 = 0 ∧ UserFile shortTexts userDev.disk 2 0 ∧
      Prepared shortTexts 2 16 userDev (rsPrepareFreezeCatalog shortTexts userDev).1
        (rsPrepareFreezeCatalog shortTexts userDev).2 := by
  refine ⟨by decide +kernel, ⟨by decide +kernel, by decide +kernel, by decide +kernel⟩, ?_⟩
  exact rsPrepareFreezeCatalog_keeps shortTexts userDev 2 16 failingDev_volume

end ZealBringup.RedSea
