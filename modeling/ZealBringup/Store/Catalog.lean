import ZealBringup.Store.Agreement
import ZealBringup.Store.Compact

/-!
# The store as a finite map

What the store is for: a map from paths to bytes, in which a path may also be
marked as deleted.  `SourceMap` is that map.  `SimAt` relates a machine to it, and
`SimAt.views` says what the relation is worth: both readers see the map.

* `SimAt.appended` — publishing one record redefines one path.
* `SimAt.call`, `SimAt.compacted` — the operations of the guest.
-/

set_option maxRecDepth 10000

namespace ZealBringup.Store

open CrashDisk LastWrite

/-! ## The map -/

/-- What a path stands for. -/
inductive Content where
  | file (bytes : List UInt8)
  | tombstone
  deriving DecidableEq, Repr

/-- A map from paths to their contents. -/
abbrev SourceMap := List UInt8 → Option Content

/-- What `zss_find` and `zss_read` report about a content. -/
def Content.lookup : Content → Lookup
  | file bytes => fileLookup bytes.length (zssCrc bytes).toNat bytes
  | tombstone => deletedLookup

/-- The view of the guest. -/
def guestView (M : SourceMap) (name : List UInt8) : Lookup :=
  if (zssNameOk name).isSome then ((M name).map Content.lookup).getD absentLookup
  else ⟨-1, 0, 0, 0, []⟩

/-- The view of the host: its tables, and the data of the record. -/
def hostView (d : Disk Sector) (b : Bank) (s : HostScan) (name : PyStr) : Option Content :=
  match s.files.lookup name with
  | some (sector, length, _) => some (.file (hostRead d (b.base + (sector + 1)) length))
  | none => if name ∈ s.deletedNames then some .tombstone else none

/-- The map, under the names of the host. -/
def SourceMap.host (M : SourceMap) (name : PyStr) : Option Content := (encodeAscii name).bind M

/-- No name of the log has a NUL in its field. -/
def Clean (m : Machine) (b : Bank) (rs : List LogRecord) : Prop :=
  ∀ r ∈ rs, 0 ∉ nameField (m.disk (b.base + r.entry.headerSector))

/-- The machine holds a log in `b` up to `tail` that means the map `M`. -/
structure SimAt (m : Machine) (b : Bank) (tail : ℕ) (M : SourceMap) : Prop where
  log : ∃ rs, Holds m b rs tail ∧ Clean m b rs
  guest : ∀ name, zssLookup m name = guestView M name
  valid : ∀ name, (zssNameOk name).isSome = false → M name = none

/-- A file of the map, its checksum and its bytes. -/
theorem Content.lookup_file {c : Content} {length checksum : ℕ} {bytes : List UInt8}
    (h : fileLookup length checksum bytes = c.lookup) :
    c = .file bytes ∧ length = bytes.length ∧ checksum = (zssCrc bytes).toNat := by
  cases c with
  | tombstone =>
    have hst : (1 : ℤ) = -3 := congrArg Lookup.status h
    exact absurd hst (by norm_num)
  | file bytes' =>
    have hbytes : bytes = bytes' := congrArg Lookup.bytes h
    subst hbytes
    exact ⟨rfl, congrArg Lookup.length h, congrArg Lookup.checksum h⟩

/-- What the newest record of a path says about its content, when `read` reads its data. -/
def NewestSays (read : ZssEntry → List UInt8) (c : Option Content) : Option LogRecord → Prop
  | none => c = none
  | some r =>
      if r.deleted then c = some .tombstone
      else c = some (.file (read r.entry)) ∧ r.entry.length = (read r.entry).length ∧
        r.entry.checksum = (zssCrc (read r.entry)).toNat

variable {M : SourceMap}

/-- The newest record of a path as the guest sees it. -/
theorem guestView_eq {name : List UInt8} (hname : (zssNameOk name).isSome) {rd : ℕ → Sector}
    {o : Option LogRecord} (h : recordLookup rd o = guestView M name) :
    NewestSays (dataBytes rd) (M name) o := by
  rw [guestView, if_pos hname] at h
  cases o with
  | none =>
    cases hM : M name with
    | none => rfl
    | some c =>
      rw [hM] at h
      cases c with
      | file bytes =>
        have hst : (0 : ℤ) = 1 := congrArg Lookup.status h
        exact absurd hst (by norm_num)
      | tombstone =>
        have hst : (0 : ℤ) = -3 := congrArg Lookup.status h
        exact absurd hst (by norm_num)
  | some r =>
    simp only [recordLookup, NewestSays] at h ⊢
    cases hM : M name with
    | none =>
      rw [hM] at h
      split at h
      · have hst : (-3 : ℤ) = 0 := congrArg Lookup.status h
        exact absurd hst (by norm_num)
      · have hst : (1 : ℤ) = 0 := congrArg Lookup.status h
        exact absurd hst (by norm_num)
    | some c =>
      rw [hM] at h
      split at h
      · rename_i hdel
        rw [if_pos hdel]
        cases c with
        | tombstone => rfl
        | file bytes =>
          have hst : (-3 : ℤ) = 1 := congrArg Lookup.status h
          exact absurd hst (by norm_num)
      · rename_i hdel
        rw [if_neg hdel]
        obtain ⟨rfl, h1, h2⟩ := Content.lookup_file h
        exact ⟨rfl, h1, h2⟩

/-! ## The data of a record, read by the host -/

theorem getElem?_flatMap_range' {α : Type*} {f : ℕ → List α} (hf : ∀ b, (f b).length = 512)
    (n b i : ℕ) (hi : i < n * 512) :
    ((List.range' b n).flatMap f)[i]? = (f (b + i / 512))[i % 512]? := by
  induction n generalizing b i with
  | zero => omega
  | succ n ih =>
    rw [List.range'_succ, List.flatMap_cons]
    by_cases h : i < 512
    · rw [List.getElem?_append_left (by rw [hf]; exact h), Nat.div_eq_of_lt h, Nat.mod_eq_of_lt h,
        Nat.add_zero]
    · rw [List.getElem?_append_right (by rw [hf]; omega), hf, ih _ _ (by omega)]
      have hdiv : b + 1 + (i - 512) / 512 = b + i / 512 := by omega
      have hmod : (i - 512) % 512 = i % 512 := by omega
      rw [hdiv, hmod]

/-- Reading a record sector by sector or as one stretch of bytes is the same. -/
theorem hostRead_eq (d : Disk Sector) (base : ℕ) {e : ZssEntry} (he : e.length ≤ e.blocks * 512) :
    hostRead d (base + (e.headerSector + 1)) e.length = dataBytes (fun i => d (base + i)) e := by
  refine List.ext_getElem? fun i => ?_
  unfold hostRead dataBytes
  by_cases hi : i < e.length
  · have hrest : i % 512 < 512 := Nat.mod_lt _ (by norm_num)
    rw [List.getElem?_take_of_lt hi, getElem?_flatMap_range' (fun b => length_slice _ _ _) _ _ _
      (by omega), List.getElem?_map, List.getElem?_range hi, Sector.slice, List.getElem?_map,
      List.getElem?_range hrest, Option.map_some, Option.map_some, Nat.zero_add, Nat.zero_add]
    have hlba : base + (e.headerSector + 1) + i / 512 = base + (e.headerSector + 1 + i / 512) := by
      omega
    rw [hlba]
  · rw [List.getElem?_eq_none (by simpa using hi), List.getElem?_eq_none]
    rw [List.length_take]
    omega

/-! ## What the host finds -/

/-- The tables of a scan are those of the map. -/
def Tables (s : HostScan) (M : SourceMap) : Prop := ∀ name,
  match M.host name with
  | none => s.files.lookup name = none ∧ name ∉ s.deletedNames
  | some .tombstone => s.files.lookup name = none ∧ name ∈ s.deletedNames
  | some (.file bytes) =>
      (∃ sector, s.files.lookup name = some (sector, bytes.length, (zssCrc bytes).toNat)) ∧
        name ∉ s.deletedNames

theorem SourceMap.host_toPy (M : SourceMap) {bytes : List UInt8} (h : (zssNameOk bytes).isSome) :
    M.host (toPy bytes) = M bytes := by
  rw [host, encodeAscii_toPy (ascii_of_zssNameOk h), Option.bind_some]

variable {m : Machine} {b : Bank} {tail : ℕ} {rs : List LogRecord}

/-- The newest record of a path as the host sees it, which reads the data sector by sector. -/
theorem SimAt.newestSays (h : SimAt m b tail M) (hlog : Holds m b rs tail) (name : PyStr) :
    NewestSays (fun e => hostRead m.disk (b.base + (e.headerSector + 1)) e.length) (M.host name)
      (lastWrite LogRecord.hostName name rs) := by
  have hsec : b.sectors < 2 ^ 31 := by rw [hlog.selects.bank.2.1]; norm_num
  have hlast : ∀ bytes : List UInt8,
      lastWrite LogRecord.hostName (toPy bytes) rs = lastWrite LogRecord.name bytes rs :=
    fun bytes => lastWrite_injective LogRecord.name toPy_injective bytes rs
  cases hl : lastWrite LogRecord.hostName name rs with
  | none =>
    show M.host name = none
    rw [SourceMap.host]
    cases henc : encodeAscii name with
    | none => rfl
    | some bytes =>
      rw [Option.bind_some]
      by_cases hok : (zssNameOk bytes).isSome
      · rw [← toPy_of_encodeAscii henc, hlast] at hl
        have hview := h.guest bytes
        rw [zssLookup_eq hlog hok, hl] at hview
        exact guestView_eq hok hview
      · exact h.valid bytes (by simpa using hok)
  | some r =>
    obtain ⟨hmem, hname⟩ := lastWrite_mem LogRecord.hostName hl
    obtain ⟨-, -, hdec⟩ := hlog.log.mem hsec hmem
    have hok := (zssDecodeRecord_eq hdec).2.2.1
    have hblocks : r.entry.length ≤ r.entry.blocks * 512 := by
      have hlt : r.entry.headerSector < 2 ^ 31 := by
        have := (hlog.log.mem hsec hmem).2.1
        have := hlog.tail_le
        omega
      rw [(zssDecodeRecord_some hdec hlt).2.2.1]
      omega
    rw [← hname, show LogRecord.hostName r = toPy r.name from rfl] at hl ⊢
    rw [hlast] at hl
    have hview := h.guest r.name
    rw [zssLookup_eq hlog hok, hl] at hview
    have hM := guestView_eq hok hview
    rw [M.host_toPy hok]
    simp only [NewestSays, hostRead_eq m.disk b.base hblocks]
    exact hM

/-- **The host sees the map.**  Its scan ends at the tail, its tables are those of the map,
and the data of a record is the file. -/
theorem SimAt.scan (h : SimAt m b tail M) (hfull : FullSize m.vb) :
    ∃ s, scan m.disk = .ok (b, s) ∧ s.pos = tail ∧ Tables s M ∧
      ∀ name sector length checksum, s.files.lookup name = some (sector, length, checksum) →
        M.host name = some (.file (hostRead m.disk (b.base + (sector + 1)) length)) := by
  obtain ⟨rs, hlog, hclean⟩ := h.log
  have hsec : b.sectors < 2 ^ 31 := by rw [hlog.selects.bank.2.1]; norm_num
  refine ⟨_, scan_eq hfull hlog hclean, (foldl_add hlog.log hsec ⟨1, ∅, ∅⟩ rfl []).1, ?_, ?_⟩
  · intro name
    obtain ⟨-, hfiles, hdeleted⟩ := foldl_add hlog.log hsec ⟨1, ∅, ∅⟩ rfl name
    have hname := h.newestSays hlog name
    cases hl : lastWrite LogRecord.hostName name rs with
    | none =>
      rw [hl] at hname hfiles hdeleted
      rw [hname]
      exact ⟨hfiles, fun hmem => Finset.notMem_empty _ (hdeleted.1 hmem)⟩
    | some r =>
      rw [hl] at hname hfiles hdeleted
      simp only [hostFile, hostDeleted] at hfiles hdeleted
      by_cases hdel : r.deleted = true
      · simp only [NewestSays, if_pos hdel] at hname hfiles
        rw [hname]
        exact ⟨hfiles, hdeleted.2 hdel⟩
      · simp only [NewestSays, if_neg hdel] at hname hfiles
        rw [hname.1]
        refine ⟨⟨r.entry.headerSector, ?_⟩, fun hmem => hdel (hdeleted.1 hmem)⟩
        rw [hfiles, ← hname.2.1, ← hname.2.2]
  · intro name sector length checksum hlook
    obtain ⟨-, hfiles, -⟩ := foldl_add hlog.log hsec ⟨1, ∅, ∅⟩ rfl name
    have hname := h.newestSays hlog name
    rw [hfiles] at hlook
    cases hl : lastWrite LogRecord.hostName name rs with
    | none =>
      rw [hl] at hlook
      cases hlook
    | some r =>
      rw [hl] at hname hlook
      simp only [hostFile] at hlook
      by_cases hdel : r.deleted = true
      · rw [if_pos hdel] at hlook
        cases hlook
      · simp only [NewestSays, if_neg hdel] at hname hlook
        cases hlook
        exact hname.1

variable {m' : Machine} {b' : Bank}

/-- A machine that differs from `m` in one path only. -/
theorem SimAt.appended {tail' : ℕ} {name : List UInt8} {c : Content} (h : SimAt m b tail M)
    (hlog : ∃ rs, Holds m' b' rs tail' ∧ Clean m' b' rs) (hok : (zssNameOk name).isSome)
    (hother : ∀ n, n ≠ name → zssLookup m' n = zssLookup m n)
    (hname : zssLookup m' name = c.lookup) :
    SimAt m' b' tail' (Function.update M name (some c)) := by
  refine ⟨hlog, fun n => ?_, fun n hn => ?_⟩
  · by_cases hnn : n = name
    · subst hnn
      rw [hname, guestView, if_pos hok, Function.update_self]
      rfl
    · rw [hother n hnn, h.guest n, guestView, guestView, Function.update_of_ne hnn]
  · have hne : n ≠ name := by
      rintro rfl
      rw [hok] at hn
      cases hn
    rw [Function.update_of_ne hne]
    exact h.valid n hn

/-- A machine that looks the same. -/
theorem SimAt.unchanged {tail' : ℕ} (h : SimAt m b tail M)
    (hlog : ∃ rs, Holds m' b' rs tail' ∧ Clean m' b' rs)
    (hsame : ∀ n, zssLookup m' n = zssLookup m n) : SimAt m' b' tail' M :=
  ⟨hlog, fun n => (hsame n).trans (h.guest n), h.valid⟩

theorem Clean.congr (hclean : Clean m b rs) (h : Holds m b rs tail)
    (hagree : ∀ i < tail, m'.disk (b.base + i) = m.disk (b.base + i)) : Clean m' b rs := by
  intro r hr
  have hsec : b.sectors < 2 ^ 31 := by rw [h.selects.bank.2.1]; norm_num
  obtain ⟨-, h2, -⟩ := h.log.mem hsec hr
  rw [hagree _ (by omega)]
  exact hclean r hr

theorem length_dataBytes (rd : ℕ → Sector) {e : ZssEntry} (he : e.length ≤ e.blocks * 512) :
    (dataBytes rd e).length = e.length := by
  have h := hostRead_eq rd 0 he
  simp only [Nat.zero_add] at h
  rw [← h, hostRead, List.length_map, List.length_range]

/-- A record whose checksum is right is a content. -/
theorem recordLookup_content {rd : ℕ → Sector} {r : LogRecord} {post : Lookup}
    (he : r.entry.length ≤ r.entry.blocks * 512) (hview : recordLookup rd (some r) = post)
    (hread : post.readCode = 0) :
    post = if r.deleted then Content.tombstone.lookup else (Content.file post.bytes).lookup := by
  subst hview
  simp only [recordLookup] at hread ⊢
  by_cases hdel : r.deleted = true
  · rw [if_pos hdel, if_pos hdel]
    rfl
  · rw [if_neg hdel] at hread ⊢
    rw [if_neg hdel, Content.lookup]
    have hcrc : (zssCrc (dataBytes rd r.entry)).toNat = r.entry.checksum := by
      by_contra hne
      rw [fileLookup, if_neg hne] at hread
      exact absurd hread (by norm_num)
    show fileLookup r.entry.length r.entry.checksum (dataBytes rd r.entry) =
      fileLookup (dataBytes rd r.entry).length (zssCrc (dataBytes rd r.entry)).toNat
        (dataBytes rd r.entry)
    rw [hcrc, length_dataBytes rd he]

/-! ## The guest -/

/-- What a call that appends makes of its path. -/
def AppendCall.content : AppendCall → Content
  | put _ src => .file src
  | delete _ => .tombstone
  | upload _ length _ chunks => .file (acceptedBytes length [] chunks)

theorem AppendCall.deleted_record (tail : ℕ) (call : AppendCall) :
    (if (call.record tail).deleted then Content.tombstone else .file call.result.bytes)
      = call.content := by
  cases call <;> rfl

/-- **A call of the guest.**  It leaves the map as it was, or redefines its path; on a
healthy device, the latter exactly when it returns 0. -/
theorem SimAt.call (h : SimAt m b tail M) (call : AppendCall) :
    ∃ tail' M', SimAt (call.run m).2 b tail' M' ∧ (call.run m).2.vb = m.vb ∧
      (call.run m).2.outcome = m.outcome ∧
      ((call.run m).1 ≠ 0 ∧ M' = M ∨
        M' = Function.update M call.name (some call.content) ∧ (m.Healthy → (call.run m).1 = 0)) := by
  obtain ⟨rs, hlog, hclean⟩ := h.log
  have hsec := hlog.selects.bank.2.1
  have htail := hlog.tail_le
  rcases call.appends hlog with ⟨hsame, hcode⟩ | happ
  · rw [hsame]
    exact ⟨tail, M, h, rfl, rfl, Or.inl ⟨hcode, rfl⟩⟩
  · have hname := call.name_record tail
    have hcontent := call.deleted_record tail
    cases happ with
    | failed evs ran within hcode =>
      have hoff : ∀ a ∉ beyond b.base b.sectors tail, (call.run m).2.disk a = m.disk a := by
        intro a ha
        rw [ran.disk]
        exact replay_off within _ ha
      obtain ⟨hlog', hview⟩ := hlog.beyond_tail ran.vb hoff
      refine ⟨tail, M, h.unchanged ⟨rs, hlog', ?_⟩ hview, ran.vb, ran.outcome, Or.inl ⟨hcode, rfl⟩⟩
      exact hclean.congr hlog fun i hi => hoff _ (not_mem_beyond (le_of_lt hi))
    | published body header flushed ran within room decodes ended view _ healthy clean verified =>
      have hdisk : (call.run m).2.disk =
          Function.update (replay body m.disk) (b.base + tail) header := by
        rw [ran.disk, replay_publication]
        rfl
      have hoff : ∀ a ∉ beyond b.base b.sectors tail, replay body m.disk a = m.disk a :=
        fun a ha => replay_off within _ ha
      obtain ⟨hlog', hother, htarget⟩ := hlog.published ran.vb room hoff hdisk decodes ended view
      obtain ⟨hpos, hfit, hblocks, -, -, hok⟩ := zssDecodeRecord_some decodes (by
        show tail < 2 ^ 31
        omega)
      have hresult := recordLookup_content (by rw [hblocks]; omega) view verified
      have hclean' : Clean (call.run m).2 b (rs ++ [call.record tail]) := by
        intro r hr
        rcases List.mem_append.1 hr with hr | hr
        · refine hclean.congr hlog (fun i hi => ?_) r hr
          rw [hdisk, Function.update_of_ne (by omega), hoff _ (not_mem_beyond (le_of_lt hi))]
        · rw [List.mem_singleton.1 hr, hpos, hdisk, Function.update_self]
          exact clean
      rw [hname] at hother htarget hok
      refine ⟨_, _, h.appended ⟨_, hlog', hclean'⟩ hok hother ?_, ran.vb, ran.outcome,
        Or.inr ⟨rfl, fun hh => healthy hh hlog.selects.bank.2.2.1⟩⟩
      rw [htarget, hresult, ← hcontent]
      split
      · rfl
      · rfl

theorem CopiedAt.clean {m₀ : Machine} {pos next : ℕ}
    (h : CopiedAt (fun i => m₀.disk (b.base + i)) (fun i => m.disk (b'.base + i)) pos rs next)
    (hclean : Clean m₀ b rs) : Clean m b' (relocate pos rs) := by
  induction h with
  | nil =>
    intro r hr
    cases hr
  | @cons pos next r rs hr hrest ih =>
    intro q hq
    rw [relocate] at hq
    rcases List.mem_cons.1 hq with rfl | hq
    · have h0 : m.disk (b'.base + pos) = m₀.disk (b.base + r.entry.headerSector) := by
        have := hr 0 (Nat.zero_le _)
        simpa using this
      show 0 ∉ nameField (m.disk (b'.base + pos))
      rw [h0]
      exact hclean r (List.mem_cons_self ..)
    · exact ih (fun r' hr' => hclean r' (List.mem_cons_of_mem _ hr')) q hq

/-- **A compaction of the guest** leaves the map as it was, whatever it returns. -/
theorem SimAt.compacted (h : SimAt m b tail M) :
    ∃ b' tail', SimAt (zssCompact m).2.2 b' tail' M ∧ (zssCompact m).2.2.vb = m.vb ∧
      (zssCompact m).2.2.outcome = m.outcome := by
  obtain ⟨rs, hlog, hclean⟩ := h.log
  obtain ⟨hbank, hsec, -⟩ := hlog.selects.bank
  have htail := hlog.tail_le
  obtain ⟨-, hne, hapart⟩ := Bank.next_apart hbank
  have hstay : ∀ {m' : Machine}, m'.vb = m.vb →
      (∀ a ∉ stretch b.next.base 1 65536, m'.disk a = m.disk a) → SimAt m' b tail M := by
    intro m' hvb hoff
    obtain ⟨hlog', hview⟩ := hlog.other_bank hvb hoff
    refine h.unchanged ⟨rs, hlog', hclean.congr hlog fun i hi => ?_⟩ hview
    exact hoff _ fun hmem => hapart i (by omega) (stretch_mono (by omega) (le_refl _) hmem)
  cases zssCompact_compacts hlog with
  | refused evs did quiet _ =>
    refine ⟨b, tail, hstay did.vb fun a _ => ?_, did.vb, did.outcome⟩
    rw [did.disk, replay_flushes quiet]
  | moved m₁ did₁ moves capacity generation flushes _ _ =>
    have hdisk₁ : m₁.disk = m.disk := did₁.disk
    cases moves with
    | failed evs did within _ =>
      refine ⟨b, tail, hstay (did.vb.trans did₁.vb) fun a ha => ?_, did.vb.trans did₁.vb,
        did.outcome.trans did₁.outcome⟩
      rw [did.disk, hdisk₁]
      exact replay_off within _ ha
    | switched body flushed next did within copied room ended _ =>
      rw [hdisk₁] at copied ended
      have hdisk : (zssCompact m).2.2.disk = Function.update (replay body m.disk) (b.next.base + 0)
          (superblock2 b.next.sectors (b.generation + 1)) := by
        rw [did.disk, replay_publication, hdisk₁]
      obtain ⟨hlog', hview⟩ := hlog.switched (did.vb.trans did₁.vb) capacity generation
        (fun a ha => replay_off within _ ha) hdisk copied room ended
      have hcopied : CopiedAt (fun i => m.disk (b.base + i))
          (fun i => (zssCompact m).2.2.disk (b.next.base + i)) 1 (keepLatest LogRecord.name rs)
          next := by
        refine copied.frame fun i h1 _ => ?_
        rw [hdisk, Function.update_of_ne (by omega)]
      refine ⟨b.next, next, h.unchanged ⟨_, hlog', hcopied.clean fun r hr => ?_⟩ hview,
        did.vb.trans did₁.vb, did.outcome.trans did₁.outcome⟩
      exact hclean r ((keepLatest_sublist LogRecord.name rs).subset hr)

end ZealBringup.Store
