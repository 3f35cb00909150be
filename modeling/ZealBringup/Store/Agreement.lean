import ZealBringup.Store.Crash
import ZealBringup.Store.Names

/-!
# Two readers of one partition

The guest and the host read the same bytes.  This file compares them, layer by
layer: the choice of the bank (`selectBank_eq`), one header
(`scanHeader_of_decode`, `decode_of_scanHeader`), the whole scan (`scan_eq`,
`holds_of_scan`).

They agree on everything but one kind of header.  The guest copies the name into
a C string and checks that; a NUL among the `name_len` bytes cuts the name short
and the rest is never looked at.  The host rejects such a name.  So the readers
agree exactly on the images without such a record (`readers_agree_iff`).
-/

set_option maxRecDepth 10000

namespace ZealBringup.Store

open CrashDisk LastWrite

/-! ## Banks -/

theorem slice_eq_iff (s : Sector) (bs : List UInt8) : s.slice 0 bs.length = bs ↔ zssEq s bs = true := by
  unfold zssEq Sector.slice
  rw [List.all_eq_true]
  constructor
  · intro h i hi
    have hi' := List.mem_range.1 hi
    rw [beq_iff_eq, List.getD_eq_getElem _ _ hi']
    have hget := List.getElem_of_eq h (by simpa using hi')
    simpa using hget
  · intro h
    refine List.ext_getElem (by simp) fun i h1 h2 => ?_
    have hget := h i (List.mem_range.2 h2)
    rw [beq_iff_eq, List.getD_eq_getElem _ _ h2] at hget
    simpa using hget

/-- The probes are one function. -/
theorem probe_eq (d : Disk Sector) (start sectors : ℕ) :
    probe d start sectors = superGeneration sectors (d start) := by
  have h1 := slice_eq_iff (d start) superMagic1
  have h2 := slice_eq_iff (d start) superMagic2
  rw [show superMagic1.length = 8 from rfl] at h1
  rw [show superMagic2.length = 8 from rfl] at h2
  unfold probe superGeneration
  simp only [h1, h2, zlibCrc32_eq]
  by_cases hgen : zssU32 (d start) 16 = 0
  · simp [hgen]
  · simp [hgen]

/-- A device that is up and holds both banks. -/
def FullSize (vb : VirtioBlk) : Prop :=
  vb.absoluteReady = true ∧ zealSrcShadowLba + zealSrcShadowSects ≤ vb.fullCapacity

variable {m : Machine}

/-- **Both readers pick the same bank.** -/
theorem selectBank_eq (hfull : FullSize m.vb) (b : Bank) :
    selectBank m.disk = .ok b ↔ Selects m b := by
  obtain ⟨hready, hcap⟩ := hfull
  have hcap' : zealSrcLbaBase + zealSrcSects ≤ m.vb.fullCapacity := le_trans (by decide) hcap
  rw [selects_iff, zssProbeBank_eq hready _ (by decide), zssProbeBank_eq hready _ (by decide),
    if_neg (not_lt.2 hcap), if_neg (not_lt.2 hcap'), selectBank, probe_eq, probe_eq]
  simp only [hready, true_and]
  cases superGeneration zealSrcSects (m.disk zealSrcLbaBase) with
  | none =>
    cases superGeneration zealSrcShadowSects (m.disk zealSrcShadowLba) with
    | none => simp [bestBank, selectProbe]
    | some g' => simp [bestBank, selectProbe]
  | some g =>
    cases superGeneration zealSrcShadowSects (m.disk zealSrcShadowLba) with
    | none => simp [bestBank, selectProbe]
    | some g' =>
      by_cases hlt : g' > g
      · simp [bestBank, selectProbe, hlt]
      · simp [bestBank, selectProbe, hlt]

/-! ## One header -/

theorem fileMagic_iff (s : Sector) : s.slice 0 8 = hostFileMagic ↔ isFileHeader s = true := by
  have h := slice_eq_iff s hostFileMagic
  rw [show hostFileMagic.length = 8 from rfl] at h
  rw [h]
  simp [isFileHeader, zssEq, hostFileMagic, fileMagic, List.range_succ, and_assoc]

theorem deleteMagic_iff (s : Sector) : s.slice 0 8 = hostDeleteMagic ↔ isDeleteHeader s = true := by
  have h := slice_eq_iff s hostDeleteMagic
  rw [show hostDeleteMagic.length = 8 from rfl] at h
  rw [h]
  simp [isDeleteHeader, zssEq, hostDeleteMagic, deleteMagic, List.range_succ, and_assoc]

variable {sectors pos : ℕ} {s : Sector}

/-- The two tests of a header before its name are one. -/
theorem not_badHeader_iff (hpos : pos < 2 ^ 31) (hsec : sectors < 2 ^ 31) :
    ¬BadHeader sectors s pos ↔ (isFileHeader s = true ∨ isDeleteHeader s = true) ∧
      (validBody (isDeleteHeader s) (zssU32 s 8) (zssU32 s 12) (zssU32 s 16) = true ∧
        0 < zssU32 s 20 ∧ zssU32 s 20 ≤ zssMaxName ∧ pos + 1 + zssU32 s 16 ≤ sectors) := by
  constructor
  · intro h
    have hfit := (not_badHeader h hpos).1
    simp only [BadHeader, not_or, not_and_or, not_lt, Bool.not_eq_false] at h
    obtain ⟨h1, h2, h3, -, h5⟩ := h
    refine ⟨h1, ?_, Nat.pos_of_ne_zero h2, h3, hfit⟩
    unfold validBody
    by_cases hdel : isDeleteHeader s = true
    · rw [if_pos hdel] at h5 ⊢
      simp only [not_or, not_not] at h5
      simp [h5.1, h5.2.1, h5.2.2]
    · rw [if_neg hdel] at h5 ⊢
      simp only [not_or, not_lt, not_not] at h5
      simpa using ⟨Nat.pos_of_ne_zero h5.1, h5.2.1, h5.2.2⟩
  · rintro ⟨h1, h2, h3, h4, h5⟩ hbad
    unfold validBody at h2
    rcases hbad with hb | hb | hb | hb | hb
    · rcases h1 with h1 | h1
      · rw [hb.1] at h1
        cases h1
      · rw [hb.2] at h1
        cases h1
    · omega
    · omega
    · rw [Nat.mod_eq_of_lt (by omega)] at hb
      omega
    · by_cases hdel : isDeleteHeader s = true
      · rw [if_pos hdel] at h2 hb
        simp only [Bool.and_eq_true, beq_iff_eq] at h2
        rcases hb with hb | hb | hb
        · exact hb h2.1.1
        · exact hb h2.1.2
        · exact hb h2.2
      · rw [if_neg hdel] at h2 hb
        simp only [decide_eq_true_eq] at h2
        rcases hb with hb | hb | hb
        · omega
        · omega
        · exact hb h2.2.2

/-- Without a NUL in its name field a header means the same to both; with one the guest
sees a shorter name. -/
theorem zssDecodeRecord_eq {r : LogRecord} (h : zssDecodeRecord sectors s pos = some r) :
    ¬BadHeader sectors s pos ∧ r.name = cString (nameField s) ∧ (zssNameOk r.name).isSome ∧
      r.deleted = isDeleteHeader s ∧
      r.entry = ⟨pos, zssU32 s 8, zssU32 s 12, zssU32 s 16⟩ := by
  unfold zssDecodeRecord at h
  by_cases hbad : BadHeader sectors s pos
  · rw [if_pos hbad] at h
    cases h
  · rw [if_neg hbad] at h
    by_cases hname : (zssNameOk (cString (s.slice 32 (zssU32 s 20)))).isNone = true
    · simp only [if_pos hname] at h
      cases h
    · simp only [if_neg hname, Option.some.injEq] at h
      subst h
      exact ⟨hbad, rfl, by simpa [Option.isSome_iff_ne_none] using hname, rfl, rfl⟩

/-- What the host makes of a decoded record. -/
def LogRecord.toHost (r : LogRecord) : HostRecord :=
  ⟨toPy r.name, r.deleted, r.entry.length, r.entry.checksum, r.entry.blocks⟩

theorem deleted_eq (s : Sector) :
    decide (s.slice 0 8 = hostDeleteMagic) = isDeleteHeader s := by
  rw [Bool.eq_iff_iff, decide_eq_true_eq, deleteMagic_iff]

theorem magic_iff (s : Sector) : ¬(s.slice 0 8 ≠ hostFileMagic ∧ s.slice 0 8 ≠ hostDeleteMagic) ↔
    isFileHeader s = true ∨ isDeleteHeader s = true := by
  rw [Ne, Ne, fileMagic_iff, deleteMagic_iff, ← not_or, not_not]

theorem scanName_iff (pos : ℕ) (field : List UInt8) (name : PyStr) :
    scanName pos field = .ok name ↔ (zssNameOk field).isSome ∧ name = toPy field := by
  obtain ⟨hiff, hgood⟩ := validName_decodeAscii field
  constructor
  · intro h
    have hok : (zssNameOk field).isSome := by
      refine hiff.1 ?_
      unfold scanName at h
      cases hdec : decodeAscii field with
      | none =>
        rw [hdec] at h
        cases h
      | some n =>
        rw [hdec] at h
        simp only at h
        cases hval : validName n with
        | error e =>
          rw [hval] at h
          cases h
        | ok encoded => exact ⟨encoded, by rw [Option.map_some, hval]⟩
    refine ⟨hok, ?_⟩
    rw [scanName, (hgood hok).1] at h
    simp only [(hgood hok).2] at h
    exact (Except.ok.inj h).symm
  · rintro ⟨hok, rfl⟩
    rw [scanName, (hgood hok).1]
    simp only [(hgood hok).2]

/-- A header the guest decodes, without a NUL in its name, is the same record to the host. -/
theorem scanHeader_of_decode {r : LogRecord} (hpos : pos < 2 ^ 31) (hsec : sectors < 2 ^ 31)
    (hr : zssDecodeRecord sectors s pos = some r) (hnul : 0 ∉ nameField s) :
    scanHeader sectors pos s = .ok r.toHost := by
  obtain ⟨hgood, hname, hok, hdel, hentry⟩ := zssDecodeRecord_eq hr
  have hfield : cString (nameField s) = nameField s :=
    cString_eq_self fun c hc he => hnul (by rw [← he]; exact hc)
  rw [hfield] at hname
  rw [hname] at hok
  obtain ⟨hmagic, hbody⟩ := (not_badHeader_iff hpos hsec).1 hgood
  have hscan : scanName pos (s.slice 32 (zssU32 s 20)) = .ok (toPy (nameField s)) :=
    (scanName_iff _ _ _).2 ⟨hok, rfl⟩
  rw [scanHeader, if_neg ((magic_iff s).2 hmagic)]
  simp only [deleted_eq]
  rw [if_neg (not_not.2 hbody), hscan, LogRecord.toHost, hname, hdel, hentry]

/-- What the host accepts, the guest decodes, and there is no NUL in the name. -/
theorem decode_of_scanHeader {q : HostRecord} (hpos : pos < 2 ^ 31) (hsec : sectors < 2 ^ 31)
    (hq : scanHeader sectors pos s = .ok q) :
    ∃ r, zssDecodeRecord sectors s pos = some r ∧ 0 ∉ nameField s := by
  rw [scanHeader] at hq
  split at hq
  · cases hq
  · rename_i hmagic
    simp only [deleted_eq] at hq
    split at hq
    · cases hq
    · rename_i hbody
      have hgood : ¬BadHeader sectors s pos :=
        (not_badHeader_iff hpos hsec).2 ⟨(magic_iff s).1 hmagic, not_not.1 hbody⟩
      have hok : (zssNameOk (nameField s)).isSome := by
        cases hscan : scanName pos (s.slice 32 (zssU32 s 20)) with
        | error e =>
          rw [hscan] at hq
          cases hq
        | ok name => exact ((scanName_iff _ _ _).1 hscan).1
      obtain ⟨n, hn⟩ := Option.isSome_iff_exists.1 hok
      have hnul : 0 ∉ nameField s := fun hz => ((zssNameOk_some hn).2.2.2 0 hz).ne_zero rfl
      have hfield : cString (nameField s) = nameField s :=
        cString_eq_self fun c hc he => hnul (by rw [← he]; exact hc)
      refine ⟨⟨⟨pos, zssU32 s 8, zssU32 s 12, zssU32 s 16⟩, nameField s, isDeleteHeader s⟩, ?_, hnul⟩
      rw [zssDecodeRecord, if_neg hgood]
      show (if (zssNameOk (cString (nameField s))).isNone then none else _) = _
      rw [hfield, hn, if_neg (by simp)]
      show some (LogRecord.mk _ (cString (nameField s)) _) = _
      rw [hfield]

/-! ## The scan -/

/-- The bookkeeping of the host for a record of the guest. -/
def HostScan.add (s : HostScan) (r : LogRecord) : HostScan := s.record r.toHost

theorem HostScan.pos_add (s : HostScan) (r : LogRecord) :
    (s.add r).pos = s.pos + 1 + r.entry.blocks := by
  rw [add, record]
  split
  · rfl
  · rfl

variable {b : Bank} {tail : ℕ} {rs : List LogRecord}

/-- **The host reads the log of the guest**, if no name has a NUL in it. -/
theorem scanLoop_eq {d : Disk Sector} (hsec : b.sectors < 2 ^ 31)
    (h : LogAt b.sectors (fun i => d (b.base + i)) pos rs tail)
    (hnul : ∀ r ∈ rs, 0 ∉ nameField (d (b.base + r.entry.headerSector))) (s : HostScan)
    (hs : s.pos = pos) (fuel : ℕ) (hfuel : b.sectors ≤ pos + fuel) :
    scanLoop d b fuel s = .ok (rs.foldl HostScan.add s) := by
  induction h generalizing s fuel with
  | full hle =>
    cases fuel with
    | zero => rfl
    | succ fuel =>
      rw [scanLoop, if_neg (by omega)]
      rfl
  | empty hlt hz =>
    obtain ⟨k, rfl⟩ : ∃ k, fuel = k + 1 := ⟨fuel - 1, by omega⟩
    rw [← hs] at hz hlt
    rw [scanLoop, if_pos hlt, if_pos (isEmptySector_iff.2 hz)]
    rfl
  | @record pos tail r rs hlt hr hrest ih =>
    obtain ⟨k, rfl⟩ : ∃ k, fuel = k + 1 := ⟨fuel - 1, by omega⟩
    have hhead := (zssDecodeRecord_some hr (by omega)).1
    have hnul0 := hnul r (List.mem_cons_self ..)
    rw [hhead] at hnul0
    rw [← hs] at hlt hr hnul0
    have hne : ¬isEmptySector (d (b.base + s.pos)) = true := by
      rw [isEmptySector_iff]
      intro hz
      rw [hz, zssDecodeRecord_zero] at hr
      cases hr
    rw [scanLoop, if_pos hlt, if_neg hne, scanHeader_of_decode (by omega) hsec hr hnul0,
      List.foldl_cons]
    refine ih (fun r' h' => hnul r' (List.mem_cons_of_mem _ h')) (s.add r) ?_ k (by omega)
    rw [HostScan.pos_add, hs]

/-- What the host accepts is a log of the guest without such names. -/
theorem logAt_of_scanLoop {d : Disk Sector} (hsec : b.sectors < 2 ^ 31) (fuel : ℕ)
    (s s' : HostScan) (hfuel : b.sectors ≤ s.pos + fuel) (h : scanLoop d b fuel s = .ok s') :
    ∃ rs tail, LogAt b.sectors (fun i => d (b.base + i)) s.pos rs tail ∧
      ∀ r ∈ rs, 0 ∉ nameField (d (b.base + r.entry.headerSector)) := by
  induction fuel generalizing s with
  | zero => exact ⟨[], s.pos, LogAt.full (by omega), by simp⟩
  | succ fuel ih =>
    by_cases hlt : s.pos < b.sectors
    · rw [scanLoop, if_pos hlt] at h
      by_cases hz : isEmptySector (d (b.base + s.pos)) = true
      · exact ⟨[], s.pos, LogAt.empty hlt (isEmptySector_iff.1 hz), by simp⟩
      · rw [if_neg hz] at h
        cases hq : scanHeader b.sectors s.pos (d (b.base + s.pos)) with
        | error e =>
          rw [hq] at h
          cases h
        | ok q =>
          obtain ⟨r, hr, hnul⟩ := decode_of_scanHeader (by omega) hsec hq
          have hsame := scanHeader_of_decode (by omega) hsec hr hnul
          rw [hsame] at h
          have hpos : (s.record r.toHost).pos = s.pos + 1 + r.entry.blocks := s.pos_add r
          obtain ⟨rs, tail, hlog, hnuls⟩ := ih (s.record r.toHost) (by omega) h
          rw [hpos] at hlog
          refine ⟨r :: rs, tail, LogAt.record hlt hr hlog, fun r' hr' => ?_⟩
          rcases List.mem_cons.1 hr' with rfl | hr'
          · rw [(zssDecodeRecord_some hr (by omega)).1]
            exact hnul
          · exact hnuls r' hr'
    · exact ⟨[], s.pos, LogAt.full (by omega), by simp⟩

/-- What `files` says once the newest record of the name is known; `old` if there is none. -/
def hostFile (old : Option FileInfo) : Option LogRecord → Option FileInfo
  | none => old
  | some r =>
      if r.deleted then none else some (r.entry.headerSector, r.entry.length, r.entry.checksum)

/-- Whether `deleted_names` holds the name once its newest record is known. -/
def hostDeleted (old : Prop) : Option LogRecord → Prop
  | none => old
  | some r => r.deleted = true

/-- The key of a record in the tables of the host. -/
def LogRecord.hostName (r : LogRecord) : PyStr := toPy r.name

theorem lookup_add {s : HostScan} {r : LogRecord} (hr : r.entry.headerSector = s.pos) (n : PyStr) :
    (s.add r).files.lookup n = hostFile (s.files.lookup n) (if r.hostName = n then some r else none) ∧
      (n ∈ (s.add r).deletedNames ↔
        hostDeleted (n ∈ s.deletedNames) (if r.hostName = n then some r else none)) := by
  rw [HostScan.add, HostScan.record]
  by_cases hdel : r.deleted = true
  · rw [if_pos (show r.toHost.deleted = true from hdel)]
    by_cases hn : r.hostName = n
    · subst hn
      simp only [if_true, hostFile, hostDeleted, hdel]
      exact ⟨AList.lookup_erase _ _, iff_of_true (Finset.mem_insert_self _ _) trivial⟩
    · rw [if_neg hn]
      exact ⟨AList.lookup_erase_ne (Ne.symm hn), Finset.mem_insert.trans (or_iff_right (Ne.symm hn))⟩
  · rw [if_neg (show ¬r.toHost.deleted = true from hdel)]
    by_cases hn : r.hostName = n
    · subst hn
      simp only [if_true, hostFile, hostDeleted, if_neg hdel, hr]
      exact ⟨AList.lookup_insert _, iff_of_false (Finset.notMem_erase _ _) hdel⟩
    · rw [if_neg hn]
      exact ⟨AList.lookup_insert_ne (Ne.symm hn),
        Finset.mem_erase.trans (and_iff_right (Ne.symm hn))⟩

theorem hostFile_or (old : Option FileInfo) (o o' : Option LogRecord) :
    hostFile old (o.or o') = hostFile (hostFile old o') o := by
  cases o <;> rfl

theorem hostDeleted_or (old : Prop) (o o' : Option LogRecord) :
    hostDeleted old (o.or o') = hostDeleted (hostDeleted old o') o := by
  cases o <;> rfl

/-- **The tables of the host are the newest records of the log.** -/
theorem foldl_add {rd : ℕ → Sector} (h : LogAt sectors rd pos rs tail) (hsec : sectors < 2 ^ 31)
    (s : HostScan) (hs : s.pos = pos) (n : PyStr) :
    (rs.foldl HostScan.add s).pos = tail ∧
      (rs.foldl HostScan.add s).files.lookup n =
        hostFile (s.files.lookup n) (lastWrite LogRecord.hostName n rs) ∧
      (n ∈ (rs.foldl HostScan.add s).deletedNames ↔
        hostDeleted (n ∈ s.deletedNames) (lastWrite LogRecord.hostName n rs)) := by
  induction h generalizing s with
  | full => exact ⟨hs, rfl, Iff.rfl⟩
  | empty => exact ⟨hs, rfl, Iff.rfl⟩
  | @record pos tail r rs hlt hr hrest ih =>
    have hhead := (zssDecodeRecord_some hr (by omega)).1
    obtain ⟨h1, h2⟩ := @lookup_add s r (by rw [hhead, hs]) n
    obtain ⟨i1, i2, i3⟩ := ih (s.add r) (by rw [HostScan.pos_add, hs])
    rw [List.foldl_cons, lastWrite_cons, hostFile_or, hostDeleted_or, ← h1]
    refine ⟨i1, i2, ?_⟩
    rw [i3, propext h2]

/-- A computation that may raise succeeds when both its halves do. -/
theorem bind_eq_ok {ε α β : Type} {x : Except ε α} {f : α → Except ε β} {r : β} :
    (x >>= f) = .ok r ↔ ∃ a, x = .ok a ∧ f a = .ok r := by
  cases x with
  | error e => exact ⟨fun h => (by cases h), fun ⟨_, h, _⟩ => (by cases h)⟩
  | ok a => exact ⟨fun h => ⟨a, rfl, h⟩, fun ⟨_, h, h'⟩ => by cases h; exact h'⟩

/-! ## Agreement -/

/-- The two readers agree on what is on the disk of `m`. -/
structure ReadersAgree (m : Machine) : Prop where
  /-- They select the same bank, or both none. -/
  bank : ∀ b, Selects m b ↔ selectBank m.disk = .ok b
  /-- They reject the same logs. -/
  damaged : (∃ b, Selects m b) →
    ((zssFind m none).1.status = -1 ↔ ∃ e, scan m.disk = .error e)
  /-- They find the same tail. -/
  tail : ∀ b s, scan m.disk = .ok (b, s) →
    (zssFind m none).1.status = 0 ∧ (zssFind m none).1.tail = s.pos
  /-- They find the same files. -/
  files : ∀ b s, scan m.disk = .ok (b, s) → ∀ name info,
    s.files.lookup name = some info ↔ ∃ bytes e, name = toPy bytes ∧
      (zssFind m (some bytes)).1.status = 1 ∧ (zssFind m (some bytes)).1.out = some e ∧
      info = (e.headerSector, e.length, e.checksum)
  /-- They find the same tombstones. -/
  deleted : ∀ b s, scan m.disk = .ok (b, s) → ∀ name,
    name ∈ s.deletedNames ↔ ∃ bytes, name = toPy bytes ∧ (zssFind m (some bytes)).1.status = -3

/-- The guest reads a log with a NUL among the `name_len` bytes of some name. -/
def HasNulName (m : Machine) : Prop :=
  ∃ b rs tail, Holds m b rs tail ∧
    ∃ r ∈ rs, 0 ∈ nameField (m.disk (b.base + r.entry.headerSector))

/-- On a log without such names the host finds the newest records. -/
theorem scan_eq (hfull : FullSize m.vb) (h : Holds m b rs tail)
    (hnul : ∀ r ∈ rs, 0 ∉ nameField (m.disk (b.base + r.entry.headerSector))) :
    scan m.disk = .ok (b, rs.foldl HostScan.add ⟨1, ∅, ∅⟩) := by
  have hsec : b.sectors < 2 ^ 31 := by rw [h.selects.bank.2.1]; norm_num
  rw [scan, (selectBank_eq hfull b).2 h.selects]
  show (scanLoop m.disk b b.sectors ⟨1, ∅, ∅⟩ >>= fun s => pure (b, s)) = _
  rw [scanLoop_eq hsec h.log hnul ⟨1, ∅, ∅⟩ rfl b.sectors (by omega)]
  rfl

/-- What the host accepts is such a log. -/
theorem holds_of_scan {m : Machine} (hfull : FullSize m.vb) {b : Bank} {s : HostScan}
    (h : scan m.disk = .ok (b, s)) :
    ∃ rs tail, Holds m b rs tail ∧ (∀ r ∈ rs, 0 ∉ nameField (m.disk (b.base + r.entry.headerSector))) ∧
      s = rs.foldl HostScan.add ⟨1, ∅, ∅⟩ := by
  have hcopy := h
  rw [scan] at h
  obtain ⟨b', hsel, h⟩ := bind_eq_ok.1 h
  obtain ⟨s', hloop, h⟩ := bind_eq_ok.1 h
  obtain ⟨rfl, rfl⟩ := Prod.mk.inj (Except.ok.inj h)
  have hselects := (selectBank_eq hfull b').1 hsel
  have hsec : b'.sectors < 2 ^ 31 := by rw [hselects.bank.2.1]; norm_num
  obtain ⟨rs, tail, hlog, hnul⟩ := logAt_of_scanLoop hsec _ _ _
    (by show b'.sectors ≤ 1 + b'.sectors; omega) hloop
  have hholds : Holds m b' rs tail := ⟨hselects, hlog⟩
  refine ⟨rs, tail, hholds, hnul, ?_⟩
  rw [scan_eq hfull hholds hnul] at hcopy
  exact (Prod.mk.inj (Except.ok.inj hcopy)).2.symm

/-- On the selected bank the guest finds a log, or damage. -/
theorem Selects.damaged_or_holds (h : Selects m b) :
    (zssFind m none).1.status = -1 ∨ ∃ rs tail, Holds m b rs tail := by
  by_cases hst : (zssFind m none).1.status = -1
  · exact Or.inl hst
  · right
    rw [zssFind, if_neg (by simp), show zssAvailable m = _ from h] at hst
    obtain ⟨rs, tail, hlog⟩ := exists_logAt h.readable none _ 1 0 0 none
      (by show b.sectors ≤ 1 + b.sectors; omega) hst
    exact ⟨rs, tail, h, hlog⟩

theorem Holds.status (h : Holds m b rs tail) :
    (zssFind m none).1.status = 0 ∧ (zssFind m none).1.tail = tail := by
  rw [zssFind_eq h (by simp)]
  exact ⟨rfl, rfl⟩

/-- A NUL in a name sets the readers apart: the guest accepts the log, the host does not. -/
theorem HasNulName.not_readersAgree (hfull : FullSize m.vb) (hnul : HasNulName m) :
    ¬ReadersAgree m := by
  intro hagree
  obtain ⟨b, rs, tail, h, r, hr, hz⟩ := hnul
  cases hscan : scan m.disk with
  | error e =>
    have hst := (hagree.damaged ⟨b, h.selects⟩).2 ⟨e, hscan⟩
    rw [h.status.1] at hst
    exact absurd hst (by norm_num)
  | ok res =>
    obtain ⟨rs', tail', h', hfree, -⟩ := holds_of_scan hfull hscan
    obtain ⟨rfl, rfl, -⟩ := h.unique h'
    exact hfree r hr hz

/-- What `zss_find` says about a name, in terms of the newest record. -/
theorem Holds.find_iff (h : Holds m b rs tail) (bytes : List UInt8) :
    (∀ e, ((zssFind m (some bytes)).1.status = 1 ∧ (zssFind m (some bytes)).1.out = some e) ↔
      ∃ r, lastWrite LogRecord.name bytes rs = some r ∧ r.deleted = false ∧ r.entry = e) ∧
    ((zssFind m (some bytes)).1.status = -3 ↔
      ∃ r, lastWrite LogRecord.name bytes rs = some r ∧ r.deleted = true) := by
  have hsec : b.sectors < 2 ^ 31 := by rw [h.selects.bank.2.1]; norm_num
  by_cases hok : (zssNameOk bytes).isSome
  · rw [zssFind_eq h fun n hn => by cases hn; exact hok]
    simp only [Option.bind_some]
    cases hlast : lastWrite LogRecord.name bytes rs with
    | none => simp [statusOf]
    | some r =>
      cases hdel : r.deleted with
      | false => simp [statusOf, hdel]
      | true => simp [statusOf, hdel]
  · -- no record has an invalid name
    have hnone : lastWrite LogRecord.name bytes rs = none := by
      refine (lastWrite_eq_none_iff LogRecord.name).2 fun r hr hn => hok ?_
      rw [← hn]
      obtain ⟨h1, h2, hdec⟩ := h.log.mem hsec hr
      exact (zssDecodeRecord_eq hdec).2.2.1
    have hst : (zssFind m (some bytes)).1 = ⟨-1, none, 0, 0⟩ := by
      rw [zssFind, if_pos (by simpa using hok)]
    rw [hst, hnone]
    simp

/-- **Reader agreement.**  On a full-size disk the guest and the host agree about every
image except those whose log, as the guest reads it, has a NUL inside a name field. -/
theorem readers_agree_iff (m : Machine) (hfull : FullSize m.vb) :
    ReadersAgree m ↔ ¬HasNulName m := by
  refine ⟨fun hagree hnul => hnul.not_readersAgree hfull hagree, fun hfree => ?_⟩
  have hclean : ∀ {b rs tail}, Holds m b rs tail →
      ∀ r ∈ rs, 0 ∉ nameField (m.disk (b.base + r.entry.headerSector)) :=
    fun h r hr hz => hfree ⟨_, _, _, h, r, hr, hz⟩
  -- what a scan that succeeds has found, in terms of the log of the guest
  have hread : ∀ {b s}, scan m.disk = .ok (b, s) → ∃ rs tail, Holds m b rs tail ∧ s.pos = tail ∧
      ∀ n, s.files.lookup n = hostFile none (lastWrite LogRecord.hostName n rs) ∧
        (n ∈ s.deletedNames ↔ hostDeleted False (lastWrite LogRecord.hostName n rs)) := by
    intro b s hscan
    obtain ⟨rs, tail, h, -, rfl⟩ := holds_of_scan hfull hscan
    have hsec : b.sectors < 2 ^ 31 := by rw [h.selects.bank.2.1]; norm_num
    refine ⟨rs, tail, h, (foldl_add h.log hsec ⟨1, ∅, ∅⟩ rfl []).1, fun n => ?_⟩
    obtain ⟨-, h2, h3⟩ := foldl_add h.log hsec ⟨1, ∅, ∅⟩ rfl n
    refine ⟨h2, h3.trans ?_⟩
    rw [show (n ∈ (∅ : Finset PyStr)) = False from eq_false (Finset.notMem_empty n)]
  have hlast : ∀ (rs : List LogRecord) (bytes : List UInt8),
      lastWrite LogRecord.hostName (toPy bytes) rs = lastWrite LogRecord.name bytes rs :=
    fun rs bytes => lastWrite_injective LogRecord.name toPy_injective bytes rs
  refine ⟨fun b => (selectBank_eq hfull b).symm, ?_, ?_, ?_, ?_⟩
  · rintro ⟨b, hb⟩
    constructor
    · intro hst
      cases hscan : scan m.disk with
      | error e => exact ⟨e, rfl⟩
      | ok res =>
        obtain ⟨rs, tail, h, -⟩ := hread hscan
        rw [h.status.1] at hst
        exact absurd hst (by norm_num)
    · rintro ⟨e, hscan⟩
      rcases hb.damaged_or_holds with hst | ⟨rs, tail, h⟩
      · exact hst
      · rw [scan_eq hfull h (hclean h)] at hscan
        cases hscan
  · intro b s hscan
    obtain ⟨rs, tail, h, hpos, -⟩ := hread hscan
    rw [hpos]
    exact h.status
  · intro b s hscan name info
    obtain ⟨rs, tail, h, -, htab⟩ := hread hscan
    rw [(htab name).1]
    constructor
    · intro hinfo
      cases hl : lastWrite LogRecord.hostName name rs with
      | none =>
        rw [hl] at hinfo
        cases hinfo
      | some r =>
        have hname : toPy r.name = name := (lastWrite_mem LogRecord.hostName hl).2
        rw [hl, hostFile] at hinfo
        split at hinfo
        · cases hinfo
        · rename_i hdel
          subst hname
          rw [hlast] at hl
          obtain ⟨h1, h2⟩ := ((h.find_iff r.name).1 r.entry).2 ⟨r, hl, by simpa using hdel, rfl⟩
          exact ⟨r.name, r.entry, rfl, h1, h2, (Option.some.inj hinfo).symm⟩
    · rintro ⟨bytes, e, rfl, hst, hout, rfl⟩
      obtain ⟨r, hl, hdel, rfl⟩ := ((h.find_iff bytes).1 e).1 ⟨hst, hout⟩
      rw [hlast, hl, hostFile, hdel]
      rfl
  · intro b s hscan name
    obtain ⟨rs, tail, h, -, htab⟩ := hread hscan
    rw [(htab name).2]
    constructor
    · intro hdel
      cases hl : lastWrite LogRecord.hostName name rs with
      | none =>
        rw [hl] at hdel
        exact hdel.elim
      | some r =>
        have hname : toPy r.name = name := (lastWrite_mem LogRecord.hostName hl).2
        rw [hl] at hdel
        subst hname
        rw [hlast] at hl
        exact ⟨r.name, rfl, (h.find_iff r.name).2.2 ⟨r, hl, hdel⟩⟩
    · rintro ⟨bytes, rfl, hst⟩
      obtain ⟨r, hl, hdel⟩ := (h.find_iff bytes).2.1 hst
      rw [hlast, hl]
      exact hdel

theorem readers_agree_iff_freshDisk :
    ReadersAgree (boot fullDevice (fun _ => .done) freshDisk) ↔
      ¬HasNulName (boot fullDevice (fun _ => .done) freshDisk) :=
  readers_agree_iff _ ⟨rfl, le_refl _⟩

/-- A fresh image whose first record is a tombstone for the two bytes `A`, NUL. -/
def nulDisk : Disk Sector :=
  Function.update freshDisk (zealSrcLbaBase + 1) (deleteHeader [65, 0])

/-- The guest reads a tombstone for `A` there; the host rejects the log. -/
theorem nulDisk_readers_disagree : ¬ReadersAgree (boot fullDevice (fun _ => .done) nulDisk) := by
  have hdec : zssDecodeRecord zealSrcSects (deleteHeader [65, 0]) 1 =
      some ⟨⟨1, 0, 0, 0⟩, [65], true⟩ := by decide +kernel
  have hfield : 0 ∈ nameField (deleteHeader [65, 0]) := by decide +kernel
  have hfresh := @holds_freshDisk fullDevice (fun _ => .done) rfl (le_refl _)
  have h1 : nulDisk (zealSrcLbaBase + 1) = deleteHeader [65, 0] := Function.update_self ..
  have hother : ∀ a, a ≠ zealSrcLbaBase + 1 → nulDisk a = freshDisk a :=
    fun a ha => Function.update_of_ne ha _ _
  have hlog : Holds (boot fullDevice (fun _ => .done) nulDisk) (bankA 0)
      [⟨⟨1, 0, 0, 0⟩, [65], true⟩] 2 := by
    refine ⟨hfresh.selects.congr rfl (hother zealSrcLbaBase (by decide))
      (hother zealSrcShadowLba (by decide)), ?_⟩
    refine LogAt.record (by decide) ?_ (LogAt.empty (by decide) ?_)
    · show zssDecodeRecord zealSrcSects (nulDisk (zealSrcLbaBase + 1)) 1 = _
      rw [h1]
      exact hdec
    · show nulDisk (zealSrcLbaBase + 2) = zeroSector
      rw [hother _ (by decide)]
      exact Function.update_of_ne (by decide) _ _
  refine HasNulName.not_readersAgree ⟨rfl, le_refl _⟩ ⟨_, _, _, hlog, _, List.mem_singleton_self _, ?_⟩
  show 0 ∈ nameField (nulDisk (zealSrcLbaBase + 1))
  rw [h1]
  exact hfield

end ZealBringup.Store
