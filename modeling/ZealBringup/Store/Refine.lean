import ZealBringup.Store.Catalog

/-!
# The refinement of one finite map

The host appends to the log it finds, rewrites the active bank in place, and
merges bundles into it; the guest appends and switches banks.  This file shows
that all of it, in any order, is the same map of `Store.Catalog`.

* `SimAt.hostAppend`, `SimAt.hostTombstone` — one record, written from outside.
* `SimAt.hostCompacted`, `SimAt.hostMerged`, `hostSeed_sim` — the commands that
  loop over records.
* `store_refines` — every run of operations from a seeded image.
-/

set_option maxRecDepth 10000

namespace ZealBringup.Store

open CrashDisk LastWrite

/-! ## What the host writes -/

variable {name : PyStr}

theorem validName_ok {encoded : List UInt8} (h : validName name = .ok encoded) :
    name = toPy encoded ∧ (zssNameOk encoded).isSome := by
  have henc : encodeAscii name = some encoded := by
    unfold validName at h
    cases hname : encodeAscii name with
    | none =>
      rw [hname] at h
      cases h
    | some bytes =>
      rw [hname] at h
      simp only at h
      split at h
      · cases h
      · rw [Except.ok.inj h]
  have hname := toPy_of_encodeAscii henc
  refine ⟨hname.symm, (validName_decodeAscii encoded).1.1 ⟨encoded, ?_⟩⟩
  have hascii : ∀ c ∈ encoded, c < 128 := by
    unfold encodeAscii at henc
    split at henc
    · rename_i hlt
      intro c hc
      have hn := hlt c.toNat (by rw [← hname]; exact List.mem_map_of_mem hc)
      exact hn
    · cases henc
  rw [decodeAscii, if_pos hascii, Option.map_some, ← h]
  exact congrArg (fun n => some (validName n)) hname

/-- A NUL at the end of a magic number changes nothing in a zeroed sector. -/
theorem copyBytes_zero_snoc (bs : List UInt8) :
    copyBytes zeroSector 0 (bs ++ [0]) = copyBytes zeroSector 0 bs := by
  funext i
  unfold copyBytes zeroSector
  simp only [Nat.zero_le, true_and, Nat.zero_add, Nat.sub_zero, List.length_append,
    List.length_singleton]
  by_cases h : i.val < bs.length
  · rw [if_pos (by omega), if_pos h, List.getD_append _ _ _ _ h]
  · rw [if_neg h]
    split
    · rw [List.getD_append_right _ _ _ _ (by omega), show i.val - bs.length = 0 by omega]
      rfl
    · rfl

theorem hostFileHeader_eq (data encoded : List UInt8) :
    hostFileHeader data encoded =
      fileHeader data.length (zssCrc data).toNat ((data.length + 511) / 512) encoded := by
  have hmagic : copyBytes zeroSector 0 hostFileMagic = copyBytes zeroSector 0 fileMagic :=
    copyBytes_zero_snoc fileMagic
  rw [hostFileHeader, hmagic, zlibCrc32_eq]
  rfl

theorem hostDeleteHeader_eq (encoded : List UInt8) :
    hostDeleteHeader encoded = deleteHeader encoded := by
  have hmagic : copyBytes zeroSector 0 hostDeleteMagic = copyBytes zeroSector 0 deleteMagic :=
    (copyBytes_zero_snoc (deleteMagic ++ [0])).trans (copyBytes_zero_snoc deleteMagic)
  rw [hostDeleteHeader, hmagic]
  rfl

/-- Padding with zeros to a whole number of blocks is what a block does anyway. -/
theorem dataBlock_pad (data : List UInt8) (n k : ℕ) :
    padSector (((data ++ List.replicate n 0).drop (k * 512)).take 512) = dataBlock data k := by
  funext i
  unfold dataBlock padSector
  rw [getD_drop_take _ _ i.isLt, getD_drop_take _ _ i.isLt]
  by_cases h : k * 512 + i.val < data.length
  · rw [List.getD_append _ _ _ _ h]
  · rw [List.getD_append_right _ _ _ _ (by omega), List.getD_eq_default data _ (by omega),
      List.getD_eq_getElem?_getD, List.getElem?_replicate]
    split <;> rfl

variable {d : Disk Sector} {b : Bank}

theorem hostTerminate_off {next a : ℕ} (h : a ≠ b.base + next) :
    hostTerminate d b next a = d a := by
  unfold hostTerminate
  split
  · exact Function.update_of_ne h _ _
  · rfl

theorem append_ok {d' : Disk Sector} {pos pos' : ℕ} {data : List UInt8}
    (h : append d b pos name data = .ok (d', pos')) :
    ∃ bytes written, name = toPy bytes ∧ (zssNameOk bytes).isSome ∧
      0 < data.length ∧ data.length ≤ zssMaxFile ∧
      pos' = pos + 1 + (data.length + 511) / 512 ∧ pos' ≤ b.sectors ∧
      d' = Function.update written (b.base + pos)
        (fileHeader data.length (zssCrc data).toNat ((data.length + 511) / 512) bytes) ∧
      (∀ a ∉ beyond b.base b.sectors pos, written a = d a) ∧
      (∀ k < (data.length + 511) / 512, written (b.base + (pos + 1 + k)) = dataBlock data k) ∧
      (pos' < b.sectors → written (b.base + pos') = zeroSector) := by
  unfold append at h
  obtain ⟨bytes, hname, h⟩ := bind_eq_ok.1 h
  obtain ⟨hpy, hok⟩ := validName_ok hname
  dsimp only at h
  split at h
  · cases h
  · rename_i hsize
    split at h
    · cases h
    · rename_i hfit
      obtain ⟨hd, hpos⟩ := Prod.mk.inj (Except.ok.inj h)
      rw [not_or, not_lt] at hsize
      have hlen : 0 < data.length := List.length_pos_iff.2 hsize.1
      have hblocks : (data ++ List.replicate
          ((data.length + 511) / 512 * 512 - data.length) 0).length / 512 =
          (data.length + 511) / 512 := by
        rw [List.length_append, List.length_replicate]
        omega
      refine ⟨bytes, hostTerminate (hostWrite d (b.base + (pos + 1)) (data ++ List.replicate
        ((data.length + 511) / 512 * 512 - data.length) 0)) b (pos + 1 + (data.length + 511) / 512),
        hpy, hok, hlen, hsize.2, hpos.symm, by omega, ?_, ?_, ?_, ?_⟩
      · rw [← hd, hostFileHeader_eq]
      · intro a ha
        have hterm : hostTerminate (hostWrite d (b.base + (pos + 1)) (data ++ List.replicate
            ((data.length + 511) / 512 * 512 - data.length) 0)) b
            (pos + 1 + (data.length + 511) / 512) a =
            hostWrite d (b.base + (pos + 1)) (data ++ List.replicate
              ((data.length + 511) / 512 * 512 - data.length) 0) a := by
          by_cases hlt : pos + 1 + (data.length + 511) / 512 < b.sectors
          · exact hostTerminate_off fun he => ha ⟨_, by omega, hlt, he⟩
          · rw [hostTerminate, if_neg hlt]
        rw [hterm, hostWrite, hblocks, if_neg]
        rintro ⟨h1, h2⟩
        exact ha ⟨a - b.base, by omega, by omega, by omega⟩
      · intro k hk
        rw [hostTerminate_off (by omega), hostWrite, hblocks, if_pos (by omega),
          show b.base + (pos + 1 + k) - (b.base + (pos + 1)) = k by omega, dataBlock_pad]
      · intro hlt
        rw [← hpos] at hlt ⊢
        rw [hostTerminate, if_pos hlt, Function.update_self]

theorem appendTombstone_ok {d' : Disk Sector} {pos pos' : ℕ}
    (h : appendTombstone d b pos name = .ok (d', pos')) :
    ∃ bytes, name = toPy bytes ∧ (zssNameOk bytes).isSome ∧ pos' = pos + 1 ∧ pos' ≤ b.sectors ∧
      d' = Function.update (hostTerminate d b (pos + 1)) (b.base + pos) (deleteHeader bytes) := by
  unfold appendTombstone at h
  obtain ⟨bytes, hname, h⟩ := bind_eq_ok.1 h
  obtain ⟨hpy, hok⟩ := validName_ok hname
  dsimp only at h
  split at h
  · cases h
  · rename_i hfit
    obtain ⟨hd, hpos⟩ := Prod.mk.inj (Except.ok.inj h)
    exact ⟨bytes, hpy, hok, hpos.symm, by omega, by rw [← hd, hostDeleteHeader_eq]⟩

/-! ## Appending from the host -/

section Host

variable {vb : VirtioBlk} {outcome : ℕ → Outcome} {d d' : Disk Sector} {b : Bank} {pos pos' : ℕ}
  {M : SourceMap}

/-- Publishing one record from outside redefines one path. -/
theorem SimAt.hostPublished {written : Disk Sector} {r : LogRecord} {header : Sector}
    {c : Content} (h : SimAt (boot vb outcome d) b pos M) (hroom : pos < b.sectors)
    (hoff : ∀ a ∉ beyond b.base b.sectors pos, written a = d a)
    (hdec : zssDecodeRecord b.sectors header pos = some r) (hclean : 0 ∉ nameField header)
    (hend : pos + 1 + r.entry.blocks < b.sectors →
      written (b.base + (pos + 1 + r.entry.blocks)) = zeroSector)
    (hview : recordLookup (fun i => written (b.base + i)) (some r) = c.lookup) :
    SimAt (boot vb outcome (Function.update written (b.base + pos) header)) b
      (pos + 1 + r.entry.blocks) (Function.update M r.name (some c)) := by
  obtain ⟨rs, hlog, hcl⟩ := h.log
  have hsec := hlog.selects.bank.2.1
  obtain ⟨hlog', hother, htarget⟩ := @Holds.published _
    (boot vb outcome (Function.update written (b.base + pos) header)) _ _ _ _ _ _ _ hlog rfl hroom
    hoff rfl hdec hend hview
  obtain ⟨hpos, -, -, -, -, hok⟩ := zssDecodeRecord_some hdec (by omega)
  refine h.appended ⟨_, hlog', fun q hq => ?_⟩ hok hother htarget
  rcases List.mem_append.1 hq with hq | hq
  · refine hcl.congr hlog (fun i hi => ?_) q hq
    show Function.update written (b.base + pos) header (b.base + i) = d (b.base + i)
    rw [Function.update_of_ne (by omega), hoff _ (not_mem_beyond (le_of_lt hi))]
  · rw [List.mem_singleton.1 hq, hpos]
    show 0 ∉ nameField (Function.update written (b.base + pos) header (b.base + pos))
    rw [Function.update_self]
    exact hclean

variable {name : PyStr}

/-- **`append`** redefines its path. -/
theorem SimAt.hostAppend {data : List UInt8} (h : SimAt (boot vb outcome d) b pos M)
    (hrun : append d b pos name data = .ok (d', pos')) :
    ∃ bytes, name = toPy bytes ∧ (zssNameOk bytes).isSome ∧
      SimAt (boot vb outcome d') b pos' (Function.update M bytes (some (.file data))) := by
  obtain ⟨bytes, written, hpy, hok, hlen, hmax, rfl, hfit, rfl, hoff, hblocks, hend⟩ := append_ok hrun
  obtain ⟨rs, hlog, -⟩ := h.log
  have hsec := hlog.selects.bank.2.1
  obtain ⟨n, hn⟩ := Option.isSome_iff_exists.1 hok
  refine ⟨bytes, hpy, hok, ?_⟩
  refine @SimAt.hostPublished _ _ _ _ _ _ _ (putRecord pos bytes data) _ _ h (by omega) hoff
    (zssDecodeRecord_fileHeader hn hlen hmax (zssCrc data).toNat_lt hfit (by omega))
    (nul_not_mem_fileHeader hn) hend ?_
  rw [recordLookup, if_neg (by simp [putRecord])]
  exact congrArg (fileLookup data.length (zssCrc data).toNat)
    (@dataBytes_blocks (fun i => written (b.base + i)) data pos (zssCrc data).toNat hblocks)

/-- **`append_tombstone`** deletes its path. -/
theorem SimAt.hostTombstone (h : SimAt (boot vb outcome d) b pos M)
    (hrun : appendTombstone d b pos name = .ok (d', pos')) :
    ∃ bytes, name = toPy bytes ∧ (zssNameOk bytes).isSome ∧
      SimAt (boot vb outcome d') b pos' (Function.update M bytes (some .tombstone)) := by
  obtain ⟨bytes, hpy, hok, rfl, hfit, rfl⟩ := appendTombstone_ok hrun
  obtain ⟨rs, hlog, -⟩ := h.log
  have hsec := hlog.selects.bank.2.1
  obtain ⟨n, hn⟩ := Option.isSome_iff_exists.1 hok
  refine ⟨bytes, hpy, hok, ?_⟩
  refine @SimAt.hostPublished _ _ _ _ _ _ _ (deleteRecord pos bytes) _ _ h (by omega) ?_
    (zssDecodeRecord_deleteHeader hn (by omega) (by omega)) (nul_not_mem_deleteHeader hn) ?_ rfl
  · intro a ha
    by_cases hlt : pos + 1 < b.sectors
    · exact hostTerminate_off fun he => ha ⟨pos + 1, by omega, hlt, he⟩
    · rw [hostTerminate, if_neg hlt]
  · intro hlt
    have hlt' : pos + 1 < b.sectors := hlt
    show hostTerminate d b (pos + 1) (b.base + (pos + 1)) = zeroSector
    rw [hostTerminate, if_pos hlt', Function.update_self]

/-! ## Many records -/

/-- The bytes of an ASCII name of the host. -/
def hostBytes (name : PyStr) : List UInt8 := name.map UInt8.ofNat

theorem hostBytes_toPy (bytes : List UInt8) : hostBytes (toPy bytes) = bytes := by
  rw [hostBytes, toPy, List.map_map, List.map_id'' fun c => ?_]
  exact UInt8.ofNat_toNat

/-- The files `live`, put one after the other. -/
def SourceMap.putAll (M : SourceMap) (live : List (PyStr × List UInt8)) : SourceMap :=
  live.foldl (fun M p => Function.update M (hostBytes p.1) (some (.file p.2))) M

/-- The paths `names`, deleted one after the other. -/
def SourceMap.deleteAll (M : SourceMap) (names : List PyStr) : SourceMap :=
  names.foldl (fun M n => Function.update M (hostBytes n) (some .tombstone)) M

theorem SimAt.hostAppendAll {live : List (PyStr × List UInt8)}
    (h : SimAt (boot vb outcome d) b pos M) (hrun : appendAll b live d pos = .ok (d', pos')) :
    SimAt (boot vb outcome d') b pos' (M.putAll live) := by
  induction live generalizing d pos M with
  | nil =>
    obtain ⟨rfl, rfl⟩ := Prod.mk.inj (Except.ok.inj hrun)
    exact h
  | cons p live ih =>
    obtain ⟨name, data⟩ := p
    rw [appendAll] at hrun
    obtain ⟨⟨d₁, pos₁⟩, h₁, hrest⟩ := bind_eq_ok.1 hrun
    obtain ⟨bytes, rfl, -, hsim⟩ := h.hostAppend h₁
    have hgo := ih hsim hrest
    rwa [SourceMap.putAll, List.foldl_cons, hostBytes_toPy]

theorem SimAt.hostTombstones {names : List PyStr}
    (h : SimAt (boot vb outcome d) b pos M) (hrun : appendTombstones b names d pos = .ok (d', pos')) :
    SimAt (boot vb outcome d') b pos' (M.deleteAll names) := by
  induction names generalizing d pos M with
  | nil =>
    obtain ⟨rfl, rfl⟩ := Prod.mk.inj (Except.ok.inj hrun)
    exact h
  | cons name names ih =>
    rw [appendTombstones] at hrun
    obtain ⟨⟨d₁, pos₁⟩, h₁, hrest⟩ := bind_eq_ok.1 hrun
    obtain ⟨bytes, rfl, -, hsim⟩ := h.hostTombstone h₁
    have hgo := ih hsim hrest
    rwa [SourceMap.deleteAll, List.foldl_cons, hostBytes_toPy]

/-! ## The compaction of the host -/

/-- A bank whose first data sector is empty is the empty map. -/
theorem simAt_empty {m : Machine} (hsel : Selects m b) (hz : m.disk (b.base + 1) = zeroSector) :
    SimAt m b 1 fun _ => none := by
  have hlt : 1 < b.sectors := by rw [hsel.bank.2.1]; norm_num
  have hlog : Holds m b [] 1 := ⟨hsel, LogAt.empty hlt hz⟩
  refine ⟨⟨[], hlog, by simp [Clean]⟩, fun name => ?_, fun _ _ => rfl⟩
  by_cases hok : (zssNameOk name).isSome
  · rw [zssLookup_eq hlog hok, guestView, if_pos hok]
    rfl
  · rw [zssLookup_invalid (by simpa using hok), guestView, if_neg hok]

theorem padSector_replicate_zero (n : ℕ) : padSector (List.replicate n 0) = zeroSector := by
  funext i
  unfold padSector zeroSector
  rw [List.getD_eq_getElem?_getD, List.getElem?_replicate]
  split <;> rfl

theorem wiped_eq (d : Disk Sector) (b : Bank) (a : ℕ) :
    hostWrite d (b.base + 1) (List.replicate ((b.sectors - 1) * 512) 0) a =
      if b.base + 1 ≤ a ∧ a < b.base + 1 + (b.sectors - 1) then zeroSector else d a := by
  rw [hostWrite, List.length_replicate, Nat.mul_div_cancel _ (by norm_num : 0 < 512)]
  split
  · rw [List.drop_replicate, List.take_replicate, padSector_replicate_zero]
  · rfl

/-- What `compact` reads before it writes. -/
theorem readLive_ok {items : List (Sigma fun _ : PyStr => FileInfo)}
    {live : List (PyStr × List UInt8)} (h : readLive d b items = .ok live) :
    live = items.map fun it => (it.1, hostRead d (b.base + (it.2.1 + 1)) it.2.2.1) := by
  induction items generalizing live with
  | nil => exact (Except.ok.inj h).symm
  | cons it items ih =>
    obtain ⟨name, sector, length, checksum⟩ := it
    rw [readLive] at h
    dsimp only at h
    split at h
    · cases h
    · obtain ⟨live', h', hret⟩ := bind_eq_ok.1 h
      rw [← Except.ok.inj hret, ih h']
      rfl

theorem SourceMap.host_eq_some {c : Content} (h : M.host name = some c) :
    M (hostBytes name) = some c := by
  unfold SourceMap.host encodeAscii at h
  split at h
  · exact h
  · cases h

/-- The map can be rebuilt from the tables and the data they point to. -/
theorem rebuilt_eq {s : HostScan} (hvalid : ∀ name, (zssNameOk name).isSome = false → M name = none)
    (htables : Tables s M)
    (hdata : ∀ name sector length checksum, s.files.lookup name = some (sector, length, checksum) →
      M.host name = some (.file (hostRead d (b.base + (sector + 1)) length))) :
    SourceMap.deleteAll (SourceMap.putAll (fun _ => none) ((sortedItems s.files).map fun it =>
      (it.1, hostRead d (b.base + (it.2.1 + 1)) it.2.2.1))) (s.deletedNames.sort (· ≤ ·)) = M := by
  have hmem : ∀ n info, (⟨n, info⟩ : Sigma fun _ : PyStr => FileInfo) ∈ sortedItems s.files ↔
      s.files.lookup n = some info := by
    intro n info
    rw [sortedItems, (List.mergeSort_perm _ _).mem_iff, ← AList.mem_lookup_iff]
    exact Iff.rfl
  funext bytes
  rw [SourceMap.deleteAll, foldl_update hostBytes, SourceMap.putAll,
    foldl_update fun p : PyStr × List UInt8 => hostBytes p.1]
  cases hdel : lastWrite hostBytes bytes (s.deletedNames.sort (· ≤ ·)) with
  | some n =>
    obtain ⟨hn, hbytes⟩ := lastWrite_mem hostBytes hdel
    rw [Finset.mem_sort] at hn
    have hname := htables n
    cases hM : M.host n with
    | none =>
      rw [hM] at hname
      exact absurd hn hname.2
    | some c =>
      rw [hM] at hname
      cases c with
      | file bs => exact absurd hn hname.2
      | tombstone =>
        rw [← hbytes, SourceMap.host_eq_some hM]
        rfl
  | none =>
    rw [Option.map_none, Option.getD_none]
    cases hput : lastWrite (fun p : PyStr × List UInt8 => hostBytes p.1) bytes
        ((sortedItems s.files).map fun it =>
          (it.1, hostRead d (b.base + (it.2.1 + 1)) it.2.2.1)) with
    | some p =>
      obtain ⟨hp, hbytes⟩ := lastWrite_mem (fun p : PyStr × List UInt8 => hostBytes p.1) hput
      obtain ⟨⟨n, sector, length, checksum⟩, hit, rfl⟩ := List.mem_map.1 hp
      have hM := hdata n sector length checksum ((hmem n _).1 hit)
      rw [← hbytes, SourceMap.host_eq_some hM]
      rfl
    | none =>
      rw [Option.map_none, Option.getD_none]
      cases hM : M bytes with
      | none => rfl
      | some c =>
        -- a path of the map is in one of the two tables
        have hok : (zssNameOk bytes).isSome := by
          by_contra hno
          rw [hvalid bytes (by simpa using hno)] at hM
          cases hM
        have hname := htables (toPy bytes)
        rw [M.host_toPy hok, hM] at hname
        cases c with
        | tombstone =>
          refine absurd (hostBytes_toPy bytes) ((lastWrite_eq_none_iff hostBytes).1 hdel _ ?_)
          rw [Finset.mem_sort]
          exact hname.2
        | file bs =>
          obtain ⟨⟨sector, hlook⟩, -⟩ := hname
          exact absurd (hostBytes_toPy bytes) ((lastWrite_eq_none_iff _).1 hput _
            (List.mem_map_of_mem ((hmem _ _).2 hlook)))

/-- **`compact`** leaves the map as it was. -/
theorem SimAt.hostCompacted (h : SimAt (boot vb outcome d) b pos M) (hfull : FullSize vb)
    (hrun : hostCompact d = .ok d') : ∃ pos', SimAt (boot vb outcome d') b pos' M := by
  obtain ⟨s, hscan, -, htables, hdata⟩ := h.scan hfull
  obtain ⟨rs, hlog, -⟩ := h.log
  obtain ⟨hbank, hsec, -⟩ := hlog.selects.bank
  rw [hostCompact] at hrun
  obtain ⟨⟨b', s'⟩, hscan', hrun⟩ := bind_eq_ok.1 hrun
  rw [show Store.scan d = .ok (b, s) from hscan] at hscan'
  obtain ⟨rfl, rfl⟩ := Prod.mk.inj (Except.ok.inj hscan')
  dsimp only at hrun
  obtain ⟨live, hlive, hrun⟩ := bind_eq_ok.1 hrun
  obtain ⟨⟨d₁, pos₁⟩, h₁, hrun⟩ := bind_eq_ok.1 hrun
  obtain ⟨⟨d₂, pos₂⟩, h₂, hrun⟩ := bind_eq_ok.1 hrun
  obtain rfl : d₂ = d' := Except.ok.inj hrun
  -- the wiped bank is the empty map
  have hwiped : SimAt (boot vb outcome (hostWrite d (b.base + 1)
      (List.replicate ((b.sectors - 1) * 512) 0))) b 1 fun _ => none := by
    have hsuper : ∀ a, a = zealSrcLbaBase ∨ a = zealSrcShadowLba →
        hostWrite d (b.base + 1) (List.replicate ((b.sectors - 1) * 512) 0) a = d a := by
      intro a ha
      rw [wiped_eq, if_neg]
      rintro ⟨h1, h2⟩
      unfold zealSrcLbaBase zealSrcShadowLba at ha
      rcases hbank with hb | hb
      · rw [hb] at h1 h2
        simp only [bankA, zealSrcLbaBase, zealSrcSects] at h1 h2
        omega
      · rw [hb] at h1 h2
        simp only [bankB, zealSrcShadowLba, zealSrcShadowSects] at h1 h2
        omega
    refine simAt_empty (hlog.selects.congr rfl (hsuper _ (Or.inl rfl)) (hsuper _ (Or.inr rfl))) ?_
    show hostWrite d (b.base + 1) (List.replicate ((b.sectors - 1) * 512) 0) (b.base + 1) = zeroSector
    rw [wiped_eq, if_pos (by omega)]
  have hfinal := (hwiped.hostAppendAll h₁).hostTombstones h₂
  refine ⟨pos₂, ?_⟩
  have hmap := @rebuilt_eq d b M s h.valid htables hdata
  rw [readLive_ok hlive, hmap] at hfinal
  exact hfinal

end Host

end ZealBringup.Store
