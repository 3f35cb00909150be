import ZealBringup.Store.Merge

/-!
# Merging into any image that scans

`Store.Merge` follows `merge` on the map of a seeded image.  Here the image is any
one `scan` accepts: records may be damaged behind their headers, and the bundle may
name a source more than once.

* `scan_append` — `append` adds one record to the tables and keeps the other files.
* `mergeLoop_scan` — the loop takes in the members one by one (`takeIn`), and what it
  leaves is made of whole records, also when it stops.
* `merge_conserves` — the command, and when a second run appends nothing.
-/

set_option maxRecDepth 10000

namespace ZealBringup.Store

open CrashDisk LastWrite

variable {d d' : Disk Sector} {b : Bank} {s : HostScan}

/-! ## One more record -/

/-- The guest on an image, on a device that can hold both banks. -/
def imageMachine (d : Disk Sector) : Machine := boot fullDevice (fun _ => .done) d

theorem fullSize_image (d : Disk Sector) : FullSize (imageMachine d).vb := ⟨rfl, le_refl _⟩

/-- What a scan has read is a log, and it ends at `pos`. -/
theorem scan_holds (h : scan d = .ok (b, s)) :
    ∃ rs, Holds (imageMachine d) b rs s.pos ∧ Clean (imageMachine d) b rs ∧
      s = rs.foldl HostScan.add ⟨1, ∅, ∅⟩ := by
  obtain ⟨rs, tail, hlog, hclean, rfl⟩ :=
    @holds_of_scan (imageMachine d) (fullSize_image d) _ _ h
  have hsec : b.sectors < 2 ^ 31 := by rw [hlog.selects.bank.2.1]; norm_num
  refine ⟨rs, ?_, hclean, rfl⟩
  rw [(foldl_add hlog.log hsec ⟨1, ∅, ∅⟩ rfl []).1]
  exact hlog

variable {name : PyStr}

/-- The sectors of a file of the tables lie before `pos`. -/
theorem scan_file_before (h : scan d = .ok (b, s)) {sector length checksum : ℕ}
    (hfile : s.files.lookup name = some (sector, length, checksum)) :
    sector + 1 + (length + 511) / 512 ≤ s.pos := by
  obtain ⟨rs, hlog, -, hs⟩ := scan_holds h
  have hsec : b.sectors < 2 ^ 31 := by rw [hlog.selects.bank.2.1]; norm_num
  have htail := hlog.tail_le
  have hlook := (foldl_add hlog.log hsec ⟨1, ∅, ∅⟩ rfl name).2.1
  rw [← hs, hfile] at hlook
  cases hl : lastWrite LogRecord.hostName name rs with
  | none =>
    rw [hl] at hlook
    cases hlook
  | some r =>
    rw [hl] at hlook
    simp only [hostFile] at hlook
    split at hlook
    · cases hlook
    · cases hlook
      obtain ⟨-, hend, hdec⟩ := hlog.log.mem hsec (lastWrite_mem LogRecord.hostName hl).1
      have hblocks := (zssDecodeRecord_some hdec (by omega)).2.2.1
      omega

/-- Bytes before `pos` are read from sectors before `pos`. -/
theorem hostRead_congr {lba n : ℕ} (h : ∀ a, lba ≤ a → a < lba + (n + 511) / 512 → d' a = d a) :
    hostRead d' lba n = hostRead d lba n := by
  refine List.map_congr_left fun i hi => ?_
  have hlt := List.mem_range.1 hi
  rw [h _ (by omega) (by omega)]

/-- The tables of `merge` once it has appended a member. -/
def HostScan.appended (s : HostScan) (name : PyStr) (data : List UInt8) (pos : ℕ) : HostScan :=
  ⟨pos, s.files.insert name (s.pos, data.length, (zlibCrc32 data).toNat),
    s.deletedNames.erase name⟩

/-- **`append` on an image that scans.**  The new image scans to the tables `merge` keeps
without reading it again; the path has the new bytes and the others have theirs. -/
theorem scan_append {data : List UInt8} {pos : ℕ} (h : scan d = .ok (b, s))
    (happ : append d b s.pos name data = .ok (d', pos)) :
    scan d' = .ok (b, s.appended name data pos) ∧ s.pos < pos ∧
      ∀ n, hostView d' b (s.appended name data pos) n =
        if n = name then some (.file data) else hostView d b s n := by
  obtain ⟨rs, hlog, hclean, hs⟩ := scan_holds h
  have hsec := hlog.selects.bank.2.1
  obtain ⟨bytes, written, rfl, hok, hlen, hmax, rfl, hfit, rfl, hoff, hblocks, hend⟩ := append_ok happ
  obtain ⟨k, hk⟩ := Option.isSome_iff_exists.1 hok
  have hdec := zssDecodeRecord_fileHeader hk hlen hmax (zssCrc data).toNat_lt hfit
    (show b.sectors < 2 ^ 32 by omega)
  have hagree : ∀ i < s.pos, Function.update written (b.base + s.pos) (fileHeader data.length
      (zssCrc data).toNat ((data.length + 511) / 512) bytes) (b.base + i) = d (b.base + i) := by
    intro i hi
    rw [Function.update_of_ne (by omega), hoff _ (not_mem_beyond (le_of_lt hi))]
  obtain ⟨hlog', -, -⟩ := @Holds.published _ (imageMachine (Function.update written (b.base + s.pos)
    (fileHeader data.length (zssCrc data).toNat ((data.length + 511) / 512) bytes))) _ _ _
    (putRecord s.pos bytes data) _ _ _ hlog rfl (by omega) hoff rfl hdec hend rfl
  have hclean' : Clean (imageMachine (Function.update written (b.base + s.pos) (fileHeader
      data.length (zssCrc data).toNat ((data.length + 511) / 512) bytes))) b
      (rs ++ [putRecord s.pos bytes data]) := by
    intro r hr
    rcases List.mem_append.1 hr with hr | hr
    · exact hclean.congr hlog (fun i hi => hagree i hi) r hr
    · rw [List.mem_singleton.1 hr]
      show 0 ∉ nameField (Function.update written _ _ (b.base + s.pos))
      rw [Function.update_self]
      exact nul_not_mem_fileHeader hk
  have hadd : s.add (putRecord s.pos bytes data) =
      s.appended (toPy bytes) data (s.pos + 1 + (data.length + 511) / 512) := by
    rw [HostScan.appended, zlibCrc32_eq]
    rfl
  refine ⟨?_, by omega, fun n => ?_⟩
  · have hscan := scan_eq (fullSize_image _) hlog' hclean'
    rw [List.foldl_append, ← hs] at hscan
    exact hscan.trans (by rw [← hadd]; rfl)
  · by_cases hn : n = toPy bytes
    · subst hn
      rw [if_pos rfl, hostView, HostScan.appended, AList.lookup_insert]
      simp only
      have hread := @dataBytes_blocks (fun i => Function.update written (b.base + s.pos)
        (fileHeader data.length (zssCrc data).toNat ((data.length + 511) / 512) bytes) (b.base + i))
        data s.pos (zssCrc data).toNat (fun k hk => by
          rw [Function.update_of_ne (by omega)]
          exact hblocks k hk)
      rw [← hostRead_eq _ b.base (by show data.length ≤ (data.length + 511) / 512 * 512; omega)]
        at hread
      exact congrArg (some ∘ Content.file) hread
    · rw [if_neg hn, hostView, hostView, HostScan.appended, AList.lookup_insert_ne hn]
      simp only [Finset.mem_erase, ne_eq, hn, not_false_eq_true, true_and]
      cases hlook : s.files.lookup n with
      | none => rfl
      | some info =>
        obtain ⟨sector, length, checksum⟩ := info
        have hbefore := scan_file_before h hlook
        simp only
        rw [hostRead_congr fun a h1 h2 => ?_]
        obtain ⟨i, rfl⟩ : ∃ i, a = b.base + i := ⟨a - b.base, by omega⟩
        exact hagree i (by omega)

/-! ## The loop -/

/-- The length and checksum the tables have for a path. -/
def HostScan.recorded (s : HostScan) (name : PyStr) : Option (ℕ × ℕ) :=
  (s.files.lookup name).map fun f => (f.2.1, f.2.2)

/-- The length and checksum `merge` compares. -/
def TarMember.stamp (m : TarMember) : ℕ × ℕ := (m.data.length, (zlibCrc32 m.data).toNat)

/-- What an image says about one path: its content, and the recorded length and checksum. -/
abbrev PathState := Option Content × Option (ℕ × ℕ)

/-- The state of a path of an image. -/
def pathState (d : Disk Sector) (b : Bank) (s : HostScan) (name : PyStr) : PathState :=
  (hostView d b s name, s.recorded name)

/-- Whether `merge` passes over a member whose path is in this state. -/
def passesOver (refresh : Bool) (p : PathState) (m : TarMember) : Prop :=
  p.1 ≠ none ∧ refresh = false ∨ refresh = true ∧ p.2 = some m.stamp

instance (refresh : Bool) (p : PathState) (m : TarMember) : Decidable (passesOver refresh p m) :=
  inferInstanceAs (Decidable (_ ∨ _))

/-- The state of a path after `merge` has looked at a member of that name. -/
def takeIn (refresh : Bool) (p : PathState) (m : TarMember) : PathState :=
  if passesOver refresh p m then p else (some (.file m.data), some m.stamp)

theorem present_iff (d : Disk Sector) (b : Bank) (s : HostScan) (name : PyStr) :
    (name ∈ s.files ∨ name ∈ s.deletedNames) ↔ hostView d b s name ≠ none := by
  rw [hostView, ← AList.lookup_isSome]
  cases s.files.lookup name with
  | some info => simp
  | none => by_cases hdel : name ∈ s.deletedNames <;> simp [hdel]

theorem recorded_eq_iff (s : HostScan) (m : TarMember) :
    ((s.files.lookup m.name).any fun f =>
        f.2.1 == m.data.length && f.2.2 == (zlibCrc32 m.data).toNat) = true ↔
      s.recorded m.name = some m.stamp := by
  rw [HostScan.recorded, TarMember.stamp]
  cases s.files.lookup m.name with
  | none => simp
  | some info =>
    obtain ⟨sector, length, checksum⟩ := info
    simp

variable {replaceNames : List PyStr} {m : TarMember} {ms : List TarMember}

/-- One round of the loop, in terms of the state of the member's path. -/
theorem mergeLoop_cons {encoded : List UInt8} (hname : validName m.name = .ok encoded) :
    mergeLoop b replaceNames (m :: ms) d s =
      if passesOver (decide (m.name ∈ replaceNames)) (pathState d b s m.name) m then
        mergeLoop b replaceNames ms d s
      else
        match append d b s.pos m.name m.data with
        | .error e => (some e, d)
        | .ok (d, pos) => mergeLoop b replaceNames ms d (s.appended m.name m.data pos) := by
  rw [mergeLoop, hname]
  simp only [present_iff d b s, recorded_eq_iff]
  by_cases hkeep : hostView d b s m.name ≠ none ∧ decide (m.name ∈ replaceNames) = false
  · have hpass : passesOver (decide (m.name ∈ replaceNames)) (pathState d b s m.name) m :=
      Or.inl hkeep
    rw [if_pos hkeep, if_pos hpass]
  · rw [if_neg hkeep]
    by_cases hsame : decide (m.name ∈ replaceNames) = true ∧ s.recorded m.name = some m.stamp
    · have hpass : passesOver (decide (m.name ∈ replaceNames)) (pathState d b s m.name) m :=
        Or.inr hsame
      rw [if_pos hsame, if_pos hpass]
    · have hpass : ¬passesOver (decide (m.name ∈ replaceNames)) (pathState d b s m.name) m :=
        not_or.2 ⟨hkeep, hsame⟩
      rw [if_neg hsame, if_neg hpass]
      rfl

theorem mergeLoop_invalid {e : PyError} (hname : validName m.name = .error e) :
    mergeLoop b replaceNames (m :: ms) d s = (some e, d) := by
  rw [mergeLoop, hname]

/-- The state of a path after an append. -/
theorem pathState_append {pos : ℕ} (h : scan d = .ok (b, s))
    (happ : append d b s.pos m.name m.data = .ok (d', pos)) (n : PyStr) :
    pathState d' b (s.appended m.name m.data pos) n =
      if m.name = n then (some (.file m.data), some m.stamp) else pathState d b s n := by
  obtain ⟨-, -, hview⟩ := scan_append h happ
  rw [pathState, pathState, hview]
  by_cases hn : m.name = n
  · subst hn
    rw [if_pos rfl, if_pos rfl, HostScan.recorded, HostScan.appended, AList.lookup_insert]
    rfl
  · rw [if_neg (Ne.symm hn), if_neg hn, HostScan.recorded, HostScan.appended,
      AList.lookup_insert_ne (Ne.symm hn)]
    rfl

/-- What an image that scans is after some whole records have been appended to it. -/
structure Grown (b : Bank) (d : Disk Sector) (s : HostScan) (taken : List TarMember)
    (d' : Disk Sector) (s' : HostScan) : Prop where
  scans : scan d' = .ok (b, s')
  appends : appendAll b (taken.map fun m => (m.name, m.data)) d s.pos = .ok (d', s'.pos)
  pos_le : s.pos ≤ s'.pos
  pos_lt : taken ≠ [] → s.pos < s'.pos

theorem Grown.refl (h : scan d = .ok (b, s)) : Grown b d s [] d s :=
  ⟨h, rfl, le_refl _, fun hne => absurd rfl hne⟩

theorem Grown.cons {m : TarMember} {taken : List TarMember} {d₁ : Disk Sector} {s' : HostScan}
    {pos : ℕ} (h : scan d = .ok (b, s)) (happ : append d b s.pos m.name m.data = .ok (d₁, pos))
    (hrest : Grown b d₁ (s.appended m.name m.data pos) taken d' s') :
    Grown b d s (m :: taken) d' s' := by
  obtain ⟨-, hlt, -⟩ := scan_append h happ
  have hle : pos ≤ s'.pos := hrest.pos_le
  refine ⟨hrest.scans, ?_, by omega, fun _ => by omega⟩
  rw [List.map_cons, appendAll, happ]
  exact hrest.appends

/-- **The loop of `merge`.**  It appends whole records, of some of the members; unless it
stops, every path is in the state its members leave it in.  It appends nothing only if it
passes over every member. -/
theorem mergeLoop_scan {replaceNames : List PyStr} {ms : List TarMember}
    (h : scan d = .ok (b, s)) :
    ∃ taken s', taken.Sublist ms ∧ Grown b d s taken (mergeLoop b replaceNames ms d s).2 s' ∧
      ((mergeLoop b replaceNames ms d s).1 = none →
        (∀ m ∈ ms, ∃ encoded, validName m.name = .ok encoded) ∧
        (∀ n, pathState (mergeLoop b replaceNames ms d s).2 b s' n =
          (ms.filter fun m => m.name = n).foldl (takeIn (decide (n ∈ replaceNames)))
            (pathState d b s n)) ∧
        (taken = [] → ∀ m ∈ ms,
          passesOver (decide (m.name ∈ replaceNames)) (pathState d b s m.name) m)) := by
  induction ms generalizing d s with
  | nil =>
    exact ⟨[], s, List.Sublist.refl _, .refl h, fun _ => ⟨by simp, fun _ => rfl, by simp⟩⟩
  | cons m ms ih =>
    cases hname : validName m.name with
    | error e =>
      rw [mergeLoop_invalid hname]
      exact ⟨[], s, List.nil_sublist _, .refl h, fun hno => by cases hno⟩
    | ok encoded =>
      rw [mergeLoop_cons hname]
      by_cases hpass : passesOver (decide (m.name ∈ replaceNames)) (pathState d b s m.name) m
      · rw [if_pos hpass]
        obtain ⟨taken, s', hsub, hgrown, hdone⟩ := ih h
        refine ⟨taken, s', hsub.cons m, hgrown, fun hok => ?_⟩
        obtain ⟨hvalid, hstate, hpassed⟩ := hdone hok
        refine ⟨fun q hq => ?_, fun n => ?_, fun hnil q hq => ?_⟩
        · rcases List.mem_cons.1 hq with rfl | hq
          · exact ⟨encoded, hname⟩
          · exact hvalid q hq
        · rw [hstate n, List.filter_cons]
          split
          · rename_i hn
            obtain rfl := of_decide_eq_true hn
            rw [List.foldl_cons, takeIn, if_pos hpass]
          · rfl
        · rcases List.mem_cons.1 hq with rfl | hq
          · exact hpass
          · exact hpassed hnil q hq
      · rw [if_neg hpass]
        cases happ : append d b s.pos m.name m.data with
        | error e => exact ⟨[], s, List.nil_sublist _, .refl h, fun hno => by cases hno⟩
        | ok res =>
          obtain ⟨d₁, pos⟩ := res
          obtain ⟨hscan, -, -⟩ := scan_append h happ
          obtain ⟨taken, s', hsub, hgrown, hdone⟩ := ih hscan
          refine ⟨m :: taken, s', hsub.cons_cons m, hgrown.cons h happ, fun hok => ?_⟩
          obtain ⟨hvalid, hstate, -⟩ := hdone hok
          refine ⟨fun q hq => ?_, fun n => ?_, fun hnil => (by cases hnil)⟩
          · rcases List.mem_cons.1 hq with rfl | hq
            · exact ⟨encoded, hname⟩
            · exact hvalid q hq
          · have hstep := pathState_append h happ n
            rw [hstate n, hstep, List.filter_cons]
            by_cases hn : m.name = n
            · subst hn
              rw [if_pos rfl, if_pos (decide_eq_true rfl), List.foldl_cons, takeIn, if_neg hpass]
            · rw [if_neg hn, if_neg (by simpa using hn)]

/-- A loop that passes over every member leaves the image alone. -/
theorem mergeLoop_passes (hvalid : ∀ m ∈ ms, ∃ encoded, validName m.name = .ok encoded)
    (hpass : ∀ m ∈ ms, passesOver (decide (m.name ∈ replaceNames)) (pathState d b s m.name) m) :
    mergeLoop b replaceNames ms d s = (none, d) := by
  induction ms with
  | nil => rfl
  | cons m ms ih =>
    obtain ⟨encoded, hname⟩ := hvalid m (List.mem_cons_self ..)
    rw [mergeLoop_cons hname, if_pos (hpass m (List.mem_cons_self ..))]
    exact ih (fun q hq => hvalid q (List.mem_cons_of_mem _ hq))
      fun q hq => hpass q (List.mem_cons_of_mem _ hq)

/-- **Which loops append nothing.**  Those that pass over every member. -/
theorem mergeLoop_same_iff (h : scan d = .ok (b, s))
    (hvalid : ∀ m ∈ ms, ∃ encoded, validName m.name = .ok encoded) :
    mergeLoop b replaceNames ms d s = (none, d) ↔
      ∀ m ∈ ms, passesOver (decide (m.name ∈ replaceNames)) (pathState d b s m.name) m := by
  refine ⟨fun hsame => ?_, mergeLoop_passes hvalid⟩
  obtain ⟨taken, s', -, hgrown, hdone⟩ := @mergeLoop_scan _ _ _ replaceNames ms h
  rw [hsame] at hgrown hdone
  obtain ⟨-, -, hpassed⟩ := hdone rfl
  obtain rfl : s' = s := by
    have hboth := hgrown.scans.symm.trans h
    exact (Prod.mk.inj (Except.ok.inj hboth)).2
  refine hpassed ?_
  by_contra hne
  exact lt_irrefl _ (hgrown.pos_lt hne)

/-! ## One path -/

/-- Without replacement a path that is there stays as it is. -/
theorem foldl_takeIn_kept {p : PathState} (hp : p.1 ≠ none) (ms : List TarMember) :
    ms.foldl (takeIn false) p = p := by
  induction ms with
  | nil => rfl
  | cons m ms ih =>
    have hpass : passesOver false p m := Or.inl ⟨hp, rfl⟩
    rw [List.foldl_cons, takeIn, if_pos hpass, ih]

/-- A new path takes the bytes of its first member. -/
theorem foldl_takeIn_added {p : PathState} (hp : p.1 = none) (m : TarMember)
    (ms : List TarMember) :
    (m :: ms).foldl (takeIn false) p = (some (.file m.data), some m.stamp) := by
  have hno : ¬passesOver false p m := by
    rintro (⟨hne, -⟩ | ⟨hno, -⟩)
    · exact hne hp
    · cases hno
  rw [List.foldl_cons, takeIn, if_neg hno, foldl_takeIn_kept (by simp)]

/-- A path that is to be replaced ends with the stamp of its last member: with the bytes of
a member of that stamp, or as it was, if that is its stamp already. -/
theorem foldl_takeIn_refreshed (p : PathState) (ms : List TarMember) (last : TarMember) :
    ((ms ++ [last]).foldl (takeIn true) p).2 = some last.stamp ∧
      ((∃ m ∈ ms ++ [last], m.stamp = last.stamp ∧
          ((ms ++ [last]).foldl (takeIn true) p).1 = some (.file m.data)) ∨
        (ms ++ [last]).foldl (takeIn true) p = p) := by
  induction ms using List.reverseRecOn generalizing last with
  | nil =>
    rw [List.nil_append, List.foldl_cons, List.foldl_nil, takeIn]
    split
    · rename_i hpass
      rcases hpass with ⟨-, hno⟩ | ⟨-, hstamp⟩
      · cases hno
      · exact ⟨hstamp, Or.inr rfl⟩
    · exact ⟨rfl, Or.inl ⟨last, List.mem_singleton_self _, rfl, rfl⟩⟩
  | append_singleton ms q ih =>
    obtain ⟨hstamp, hcase⟩ := ih q
    rw [List.foldl_append, List.foldl_cons, List.foldl_nil, takeIn]
    split
    · rename_i hpass
      rcases hpass with ⟨-, hno⟩ | ⟨-, hsame⟩
      · cases hno
      · have hlast : q.stamp = last.stamp := Option.some.inj (hstamp.symm.trans hsame)
        refine ⟨hsame, hcase.imp_left fun ⟨m, hm, hms, hbytes⟩ => ?_⟩
        exact ⟨m, List.mem_append_left _ hm, hms.trans hlast, hbytes⟩
    · exact ⟨rfl, Or.inl ⟨last, by simp, rfl, rfl⟩⟩

/-- A path with a recorded length is a file. -/
theorem hostView_of_recorded {stamp : ℕ × ℕ} (h : s.recorded name = some stamp) :
    ∃ bytes, hostView d b s name = some (.file bytes) := by
  rw [HostScan.recorded] at h
  rw [hostView]
  cases hlook : s.files.lookup name with
  | none =>
    rw [hlook] at h
    cases h
  | some info =>
    obtain ⟨sector, length, checksum⟩ := info
    exact ⟨_, rfl⟩

/-! ## The command -/

/-- The sources of the bundle under one name, in the order `merge` looks at them. -/
def membersNamed (bundle : List TarMember) (name : PyStr) : List TarMember :=
  (sortedMembers bundle).filter fun m => m.name = name

/-- The sources that replace the same path agree in length and checksum. -/
def SameStamps (bundle : List TarMember) (replaceNames : List PyStr) : Prop :=
  ∀ name ∈ replaceNames, ∀ m ∈ membersNamed bundle name, ∀ q ∈ membersNamed bundle name,
    m.stamp = q.stamp

/-- What a merge that does not stop leaves of each path: `d` before, `d'` after it. -/
structure Conserved (bundle : List TarMember) (replaceNames : List PyStr) (b : Bank)
    (d : Disk Sector) (s : HostScan) (d' : Disk Sector) (s' : HostScan) : Prop where
  /-- A path without a source stays as it is. -/
  unnamed : ∀ name, membersNamed bundle name = [] → hostView d' b s' name = hostView d b s name
  /-- So does a file or a tombstone that is not to be replaced. -/
  kept : ∀ name ∉ replaceNames, hostView d b s name ≠ none →
    hostView d' b s' name = hostView d b s name
  /-- A new path has the bytes of one of its sources. -/
  added : ∀ name ∉ replaceNames, hostView d b s name = none → membersNamed bundle name ≠ [] →
    ∃ m ∈ membersNamed bundle name, hostView d' b s' name = some (.file m.data)
  /-- A path that is to be replaced is live and has the length and checksum of its last
  source: it took the bytes of one, unless its record had them before. -/
  replaced : ∀ name ∈ replaceNames, ∀ last, (membersNamed bundle name).getLast? = some last →
    (∃ bytes, hostView d' b s' name = some (.file bytes)) ∧
      s'.recorded name = some last.stamp ∧
      ((∃ m ∈ membersNamed bundle name, m.stamp = last.stamp ∧
          hostView d' b s' name = some (.file m.data)) ∨
        s.recorded name = some last.stamp ∧ hostView d' b s' name = hostView d b s name)

theorem foldl_conserved {bundle : List TarMember} {s' : HostScan}
    (hstate : ∀ n, pathState d' b s' n = (membersNamed bundle n).foldl (takeIn (decide (n ∈ replaceNames))) (pathState d b s n)) :
    
    Conserved bundle replaceNames b d s d' s' where
  unnamed name hnil := by
    have hname := hstate name
    rw [hnil] at hname
    exact congrArg Prod.fst hname
  kept name hno hsome := by
    have hname := hstate name
    rw [decide_eq_false hno, foldl_takeIn_kept hsome] at hname
    exact congrArg Prod.fst hname
  added name hno hnone hne := by
    have hname := hstate name
    obtain ⟨m, ms, hms⟩ := List.exists_cons_of_ne_nil hne
    rw [decide_eq_false hno, hms, foldl_takeIn_added hnone] at hname
    exact ⟨m, by rw [hms]; exact List.mem_cons_self .., congrArg Prod.fst hname⟩
  replaced name hin last hlast := by
    have hname := hstate name
    obtain ⟨ms, hms⟩ := List.getLast?_eq_some_iff.1 hlast
    obtain ⟨hstamp, hcase⟩ := foldl_takeIn_refreshed (pathState d b s name) ms last
    rw [decide_eq_true hin, hms] at hname
    rw [← hname] at hstamp hcase
    refine ⟨hostView_of_recorded hstamp, hstamp, ?_⟩
    rw [hms]
    refine hcase.imp_right fun hsame => ⟨?_, congrArg Prod.fst hsame⟩
    rw [← hstamp]
    exact (congrArg Prod.snd hsame).symm

/-- **Merging is conservative and complete, and idempotent up to repeated sources.**  On any
image that scans, `merge` only adds whole records of the sources; if it does not stop, every
path is as `Conserved` says, and a second run appends nothing exactly when the sources that
replace one path agree in length and checksum. -/
theorem merge_conserves (d : Disk Sector) (b : Bank) (s : HostScan) (bundle : List TarMember)
    (replaceNames : List PyStr) (hscan : scan d = .ok (b, s)) :
    ∃ taken s', taken.Sublist (sortedMembers bundle) ∧
      Grown b d s taken (hostMerge d bundle replaceNames).2 s' ∧
      ((hostMerge d bundle replaceNames).1 = none →
        Conserved bundle replaceNames b d s (hostMerge d bundle replaceNames).2 s' ∧
        (hostMerge (hostMerge d bundle replaceNames).2 bundle replaceNames =
            (none, (hostMerge d bundle replaceNames).2) ↔ SameStamps bundle replaceNames)) := by
  obtain ⟨taken, s', hsub, hgrown, hdone⟩ :=
    @mergeLoop_scan _ _ _ replaceNames (sortedMembers bundle) hscan
  rw [← hostMerge_ok hscan] at hgrown hdone
  refine ⟨taken, s', hsub, hgrown, fun hok => ?_⟩
  obtain ⟨hvalid, hstate, -⟩ := hdone hok
  have hconserved : Conserved bundle replaceNames b d s (hostMerge d bundle replaceNames).2 s' :=
    foldl_conserved hstate
  refine ⟨hconserved, ?_⟩
  rw [hostMerge_ok hgrown.scans, mergeLoop_same_iff hgrown.scans hvalid]
  constructor
  · intro hpass name hin m hm q hq
    have hstamp : ∀ m ∈ membersNamed bundle name, s'.recorded name = some m.stamp := by
      intro m hm
      obtain ⟨hmem, hname⟩ := List.mem_filter.1 hm
      obtain rfl := of_decide_eq_true hname
      rcases hpass m hmem with ⟨-, hno⟩ | ⟨-, hsame⟩
      · exact absurd hin (of_decide_eq_false hno)
      · exact hsame
    exact Option.some.inj ((hstamp m hm).symm.trans (hstamp q hq))
  · intro hsame m hm
    have hmem : m ∈ membersNamed bundle m.name := List.mem_filter.2 ⟨hm, decide_eq_true rfl⟩
    by_cases hin : m.name ∈ replaceNames
    · obtain ⟨last, hlast⟩ : ∃ last, (membersNamed bundle m.name).getLast? = some last :=
        ⟨_, List.getLast?_eq_some_getLast (List.ne_nil_of_mem hmem)⟩
      obtain ⟨-, hstamp, -⟩ := hconserved.replaced _ hin last hlast
      refine Or.inr ⟨decide_eq_true hin, ?_⟩
      rw [pathState, hstamp, hsame _ hin _ hmem _ (List.mem_of_getLast? hlast)]
    · refine Or.inl ⟨?_, decide_eq_false hin⟩
      by_cases hnone : hostView d b s m.name = none
      · obtain ⟨q, -, hview⟩ := hconserved.added _ hin hnone (List.ne_nil_of_mem hmem)
        rw [pathState, hview]
        exact Option.some_ne_none _
      · rw [pathState, hconserved.kept _ hin hnone]
        exact hnone

theorem scan_freshDisk : scan freshDisk = .ok (bankA 0, ⟨1, ∅, ∅⟩) :=
  scan_eq (fullSize_image freshDisk) (holds_freshDisk (fun _ => .done) rfl (le_refl _)) (by simp)

/-- The source `A.ZC` with the byte 1. -/
def sourceA : TarMember := ⟨[65, 46, 90, 67], true, [1]⟩

/-- The merge of one source into a fresh image. -/
theorem merge_conserves_freshDisk :
    ∃ taken s', taken.Sublist (sortedMembers [sourceA]) ∧
      Grown (bankA 0) freshDisk ⟨1, ∅, ∅⟩ taken (hostMerge freshDisk [sourceA] []).2 s' ∧
      ((hostMerge freshDisk [sourceA] []).1 = none →
        Conserved [sourceA] [] (bankA 0) freshDisk ⟨1, ∅, ∅⟩ (hostMerge freshDisk [sourceA] []).2 s' ∧
        (hostMerge (hostMerge freshDisk [sourceA] []).2 [sourceA] [] =
            (none, (hostMerge freshDisk [sourceA] []).2) ↔ SameStamps [sourceA] [])) :=
  merge_conserves freshDisk (bankA 0) ⟨1, ∅, ∅⟩ [sourceA] [] scan_freshDisk

/-! ## Sources that repeat -/

/-- The path `A.ZC`. -/
def pathA : PyStr := [65, 46, 90, 67]

/-- The source `A.ZC` with the text `plumless`. -/
def plumless : TarMember := ⟨pathA, true, [112, 108, 117, 109, 108, 101, 115, 115]⟩

/-- The source `A.ZC` with the text `buckeroo`, which has the checksum of `plumless`. -/
def buckeroo : TarMember := ⟨pathA, true, [98, 117, 99, 107, 101, 114, 111, 111]⟩

/-- The source `A.ZC` with one byte. -/
def shortA : TarMember := ⟨pathA, true, [7]⟩

theorem validName_pathA : validName pathA = .ok [65, 46, 90, 67] := by rfl

theorem stamp_collision : plumless.stamp = buckeroo.stamp := by decide +kernel

/-- There is room for a small source. -/
theorem append_pathA (d : Disk Sector) (b : Bank) {pos : ℕ} {data : List UInt8}
    (hlen : 0 < data.length) (hsmall : data.length ≤ 512) (hroom : pos + 2 ≤ b.sectors) :
    ∃ d', append d b pos pathA data = .ok (d', pos + 2) := by
  have hblocks : (data.length + 511) / 512 = 1 := by omega
  have hsize : ¬(data = [] ∨ data.length > zssMaxFile) := by
    rintro (rfl | hmax)
    · simp at hlen
    · unfold zssMaxFile at hmax
      omega
  rw [append, validName_pathA]
  simp only [bind, Except.bind, hblocks, if_neg hsize, if_neg (show ¬pos + 1 + 1 > b.sectors by omega)]
  exact ⟨_, rfl⟩

theorem sortedMembers_pathA (h : ∀ m ∈ ms, m.name = pathA ∧ m.isFile = true) :
    sortedMembers ms = ms := by
  have hfilter : ms.filter TarMember.isSource = ms := by
    refine List.filter_eq_self.2 fun m hm => ?_
    obtain ⟨hname, hfile⟩ := h m hm
    rw [TarMember.isSource, hname, hfile]
    rfl
  rw [sortedMembers, hfilter]
  refine List.mergeSort_of_pairwise (List.pairwise_of_forall_mem_list fun m hm q hq => ?_)
  rw [(h m hm).1, (h q hq).1]
  exact decide_eq_true (le_refl _)

/-- Replacing `A.ZC` by a source whose stamp is not the recorded one. -/
theorem mergeLoop_replace {m : TarMember} {ms : List TarMember} (h : scan d = .ok (b, s))
    (hname : m.name = pathA) (hlen : 0 < m.data.length) (hsmall : m.data.length ≤ 512)
    (hroom : s.pos + 2 ≤ b.sectors) (hstamp : s.recorded pathA ≠ some m.stamp) :
    ∃ d₁ s₁, mergeLoop b [pathA] (m :: ms) d s = mergeLoop b [pathA] ms d₁ s₁ ∧
      scan d₁ = .ok (b, s₁) ∧ s₁.pos = s.pos + 2 ∧ s₁.recorded pathA = some m.stamp := by
  obtain ⟨d₁, happ⟩ := append_pathA d b hlen hsmall hroom
  rw [← hname] at happ
  have hno : ¬passesOver (decide (m.name ∈ [pathA])) (pathState d b s m.name) m := by
    rintro (⟨-, hno⟩ | ⟨-, hsame⟩)
    · exact of_decide_eq_false hno (by rw [hname]; exact List.mem_singleton_self _)
    · rw [hname] at hsame
      exact hstamp hsame
  refine ⟨d₁, s.appended m.name m.data (s.pos + 2), ?_, (scan_append h happ).1, rfl, ?_⟩
  · rw [mergeLoop_cons (by rw [hname]; exact validName_pathA), if_neg hno, happ]
  · have hstate := pathState_append h happ pathA
    rw [if_pos hname] at hstate
    exact congrArg Prod.snd hstate

/-- Two sources that replace `A.ZC` are both appended, whatever record it had before. -/
theorem mergeLoop_pair (h : scan d = .ok (b, s)) (hroom : s.pos + 4 ≤ b.sectors)
    (hstamp : s.recorded pathA ≠ some shortA.stamp) :
    ∃ d' s', mergeLoop b [pathA] [shortA, plumless] d s = (none, d') ∧ scan d' = .ok (b, s') ∧
      s'.pos = s.pos + 4 ∧ s'.recorded pathA = some plumless.stamp := by
  have hdiff : shortA.stamp ≠ plumless.stamp := by decide +kernel
  obtain ⟨d₁, s₁, hloop₁, hscan₁, hpos₁, hrec₁⟩ := @mergeLoop_replace _ _ _ _ [plumless] h
    (rfl : shortA.name = pathA) (by decide) (by decide) (by omega) hstamp
  obtain ⟨d₂, s₂, hloop₂, hscan₂, hpos₂, hrec₂⟩ := @mergeLoop_replace _ _ _ _ [] hscan₁
    (rfl : plumless.name = pathA) (by decide) (by decide) (by omega) (by simpa [hrec₁] using hdiff)
  exact ⟨d₂, s₂, by rw [hloop₁, hloop₂]; rfl, hscan₂, by omega, hrec₂⟩

/-- **Two sources of one name, and two texts of one checksum.**  With two different sources
for a path that is replaced, a second identical merge appends again; and a replacement of
the recorded length and checksum is passed over, whatever its bytes. -/
theorem merge_repeats_records :
    ((hostMerge freshDisk [shortA, plumless] [pathA]).1 = none ∧
      (hostMerge (hostMerge freshDisk [shortA, plumless] [pathA]).2
        [shortA, plumless] [pathA]).1 = none ∧
      (hostMerge (hostMerge freshDisk [shortA, plumless] [pathA]).2
        [shortA, plumless] [pathA]).2 ≠ (hostMerge freshDisk [shortA, plumless] [pathA]).2) ∧
    ∃ d s, hostMerge freshDisk [plumless] [] = (none, d) ∧ scan d = .ok (bankA 0, s) ∧
      hostMerge d [buckeroo] [pathA] = (none, d) ∧
      hostView d (bankA 0) s pathA = some (.file plumless.data) ∧ plumless.data ≠ buckeroo.data := by
  have hsec : (bankA 0).sectors = 65536 := rfl
  have hpair : sortedMembers [shortA, plumless] = [shortA, plumless] :=
    sortedMembers_pathA (by decide)
  refine ⟨?_, ?_⟩
  · obtain ⟨d₁, s₁, hloop₁, hscan₁, hpos₁, hrec₁⟩ :=
      mergeLoop_pair scan_freshDisk (by rw [hsec]; decide) (by rintro ⟨⟩)
    obtain ⟨d₂, s₂, hloop₂, hscan₂, hpos₂, -⟩ := mergeLoop_pair hscan₁
      (by rw [hpos₁, hsec]; decide) (by rw [hrec₁]; decide +kernel)
    rw [hostMerge_ok scan_freshDisk, hpair, hloop₁]
    rw [hostMerge_ok hscan₁, hpair, hloop₂]
    refine ⟨rfl, rfl, fun hsame => ?_⟩
    have hd : d₂ = d₁ := hsame
    rw [hd, hscan₁] at hscan₂
    have hs : s₁ = s₂ := (Prod.mk.inj (Except.ok.inj hscan₂)).2
    rw [hs] at hpos₂
    omega
  · obtain ⟨d₁, happ⟩ := @append_pathA freshDisk (bankA 0) 1 plumless.data
      (by decide) (by decide) (by rw [hsec]; decide)
    obtain ⟨hscan₁, -, hview⟩ := scan_append scan_freshDisk happ
    have hstate := pathState_append (m := plumless) scan_freshDisk happ pathA
    rw [if_pos (show plumless.name = pathA from rfl)] at hstate
    have hfirst : hostMerge freshDisk [plumless] [] = (none, d₁) := by
      have hno : ¬passesOver (decide (plumless.name ∈ ([] : List PyStr)))
          (pathState freshDisk (bankA 0) ⟨1, ∅, ∅⟩ plumless.name) plumless := by
        rintro (⟨hne, -⟩ | ⟨hin, -⟩)
        · exact hne rfl
        · exact List.not_mem_nil (of_decide_eq_true hin)
      rw [hostMerge_ok scan_freshDisk, sortedMembers_pathA (by decide),
        mergeLoop_cons validName_pathA, if_neg hno]
      rw [show append freshDisk (bankA 0) 1 plumless.name plumless.data = _ from happ]
      rfl
    refine ⟨d₁, _, hfirst, hscan₁, ?_, ?_, by decide⟩
    · have hpass : ∀ m ∈ [buckeroo], passesOver (decide (m.name ∈ [pathA]))
          (pathState d₁ (bankA 0) (HostScan.appended ⟨1, ∅, ∅⟩ pathA plumless.data 3) m.name) m := by
        intro m hm
        obtain rfl := List.mem_singleton.1 hm
        refine Or.inr ⟨by decide, ?_⟩
        exact (congrArg Prod.snd hstate).trans (congrArg some stamp_collision)
      rw [hostMerge_ok hscan₁, sortedMembers_pathA (by decide)]
      refine mergeLoop_passes (fun m hm => ?_) hpass
      obtain rfl := List.mem_singleton.1 hm
      exact ⟨_, validName_pathA⟩
    · rw [hview, if_pos rfl]

end ZealBringup.Store
