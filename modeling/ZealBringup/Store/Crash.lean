import ZealBringup.Store.Upload

/-!
# Power cuts during an append

A machine is started on a disk image, one append is issued on it, the power goes
out at some point, and a machine is started on what is left.  The main theorem,
`append_crash_atomic`, says what that second machine sees: an undamaged log, every
other name as before, and the name of the append either as before or as the
append left it.

The argument has two halves, one for each constructor of `Appends`.
`Holds.beyond_tail` — sectors behind the tail do not matter;
`Holds.published` — with the header in place the log is longer by one record.
-/

namespace ZealBringup.Store

open CrashDisk LastWrite

/-! ## Starting a machine -/

/-- A machine just started on the image `d`: the initial globals, no history. -/
def boot (vb : VirtioBlk) (outcome : ℕ → Outcome) (d : Disk Sector) : Machine where
  vb := vb
  outcome := outcome
  disk := d
  trace := []
  commands := 0
  zssBase := zealSrcLbaBase
  zssSectors := zealSrcSects
  zssGeneration := 0
  catalogRevision := 0
  catalogValid := false

/-- An image formatted by `seed` with nothing in it yet. -/
def freshDisk : Disk Sector :=
  Function.update (fun _ => zeroSector) zealSrcLbaBase (superblock1 zealSrcSects)

/-- A fresh image holds the empty log. -/
theorem holds_freshDisk {vb : VirtioBlk} (outcome : ℕ → Outcome) (hready : vb.absoluteReady = true)
    (hcap : zealSrcShadowLba + zealSrcShadowSects ≤ vb.fullCapacity) :
    Holds (boot vb outcome freshDisk) (bankA 0) [] 1 := by
  have hA : freshDisk zealSrcLbaBase = superblock1 zealSrcSects := Function.update_self ..
  have hB : freshDisk zealSrcShadowLba = zeroSector :=
    Function.update_of_ne (show zealSrcShadowLba ≠ zealSrcLbaBase by decide) _ _
  refine ⟨selects_bankA hready (le_trans (by decide) hcap) ?_ ?_, LogAt.empty (by decide) ?_⟩
  · show superGeneration zealSrcSects (freshDisk zealSrcLbaBase) = some 0
    rw [hA, superGeneration_superblock1 (by decide)]
  · show superGeneration zealSrcShadowSects (freshDisk zealSrcShadowLba) = none
    rw [hB, superGeneration_zero (by decide)]
  · show freshDisk (zealSrcLbaBase + 1) = zeroSector
    exact Function.update_of_ne (by decide) _ _

/-! ## The two halves -/

/-- The superblocks are not among the sectors an append writes. -/
theorem Selects.super_not_mem_beyond {m : Machine} {b : Bank} (h : Selects m b) (tail : ℕ) :
    zealSrcLbaBase ∉ beyond b.base b.sectors tail ∧
      zealSrcShadowLba ∉ beyond b.base b.sectors tail := by
  obtain ⟨hb, hsec, -⟩ := h.bank
  rw [hsec]
  constructor
  · rintro ⟨i, h1, h2, h3⟩
    rcases hb with hb | hb
    · rw [hb] at h3
      simp only [bankA, zealSrcLbaBase] at h3
      omega
    · rw [hb] at h3
      simp only [bankB, zealSrcLbaBase, zealSrcShadowLba] at h3
      omega
  · rintro ⟨i, h1, h2, h3⟩
    rcases hb with hb | hb
    · rw [hb] at h3
      simp only [bankA, zealSrcLbaBase, zealSrcShadowLba] at h3
      omega
    · rw [hb] at h3
      simp only [bankB, zealSrcShadowLba] at h3
      omega

/-- **Sectors behind the tail do not matter.**  A machine whose disk differs only there
holds the same log and sees the same names. -/
theorem Holds.beyond_tail {m m' : Machine} {b : Bank} {rs : List LogRecord} {tail : ℕ}
    (h : Holds m b rs tail) (hvb : m'.vb = m.vb)
    (hoff : ∀ a ∉ beyond b.base b.sectors tail, m'.disk a = m.disk a) :
    Holds m' b rs tail ∧ ∀ name, zssLookup m' name = zssLookup m name := by
  obtain ⟨hA, hB⟩ := h.selects.super_not_mem_beyond tail
  have hagree : ∀ i ≤ tail, m'.disk (b.base + i) = m.disk (b.base + i) :=
    fun i hi => hoff _ (not_mem_beyond hi)
  have h' : Holds m' b rs tail := by
    refine ⟨h.selects.congr hvb (hoff _ hA) (hoff _ hB), h.log.frame ?_ ?_⟩
    · exact fun i _ hi => hagree i (le_of_lt hi)
    · intro ht
      show m'.disk (b.base + tail) = zeroSector
      rw [hagree tail (le_refl _)]
      exact h.log.tail_zero ht
  exact ⟨h', zssLookup_congr h h' fun i hi => hagree i (le_of_lt hi)⟩

/-- **Publication.**  With the header of `r` at the tail, and everything else different
only behind it, the log is longer by `r`. -/
theorem Holds.published {m m' : Machine} {b : Bank} {rs : List LogRecord} {tail : ℕ}
    {r : LogRecord} {header : Sector} {d : Disk Sector} {post : Lookup}
    (h : Holds m b rs tail) (hvb : m'.vb = m.vb) (hroom : tail < b.sectors)
    (hoff : ∀ a ∉ beyond b.base b.sectors tail, d a = m.disk a)
    (hdisk : m'.disk = Function.update d (b.base + tail) header)
    (hdec : zssDecodeRecord b.sectors header tail = some r)
    (hend : tail + 1 + r.entry.blocks < b.sectors →
      d (b.base + (tail + 1 + r.entry.blocks)) = zeroSector)
    (hview : recordLookup (fun i => d (b.base + i)) (some r) = post) :
    Holds m' b (rs ++ [r]) (tail + 1 + r.entry.blocks) ∧
      (∀ name, name ≠ r.name → zssLookup m' name = zssLookup m name) ∧
      zssLookup m' r.name = post := by
  obtain ⟨hA, hB⟩ := h.selects.super_not_mem_beyond tail
  have hsec : b.sectors < 2 ^ 31 := by rw [h.selects.bank.2.1]; norm_num
  obtain ⟨hpos, -, -, -, -, hname⟩ := zssDecodeRecord_some hdec (by omega)
  have htail : 1 ≤ tail := h.log.le_tail
  have hbank := h.selects.bank
  have hne : zealSrcLbaBase ≠ b.base + tail ∧ zealSrcShadowLba ≠ b.base + tail := by
    have h65 : tail < 65536 := by rw [← hbank.2.1]; exact hroom
    rcases hbank.1 with hb | hb
    · rw [hb]
      simp only [bankA, zealSrcLbaBase, zealSrcShadowLba]
      omega
    · rw [hb]
      simp only [bankB, zealSrcLbaBase, zealSrcShadowLba]
      omega
  have hagree : ∀ i < tail, m'.disk (b.base + i) = m.disk (b.base + i) := by
    intro i hi
    rw [hdisk, Function.update_of_ne (by omega), hoff _ (not_mem_beyond (le_of_lt hi))]
  have hbehind : ∀ i, tail < i → m'.disk (b.base + i) = d (b.base + i) := by
    intro i hi
    rw [hdisk, Function.update_of_ne (by omega)]
  have h' : Holds m' b (rs ++ [r]) (tail + 1 + r.entry.blocks) := by
    refine ⟨h.selects.congr hvb ?_ ?_, h.log.append hroom (fun i _ hi => hagree i hi) ?_ ?_⟩
    · rw [hdisk, Function.update_of_ne hne.1, hoff _ hA]
    · rw [hdisk, Function.update_of_ne hne.2, hoff _ hB]
    · show zssDecodeRecord b.sectors (m'.disk (b.base + tail)) tail = some r
      rw [hdisk, Function.update_self]
      exact hdec
    · by_cases hlt : tail + 1 + r.entry.blocks < b.sectors
      · right
        show m'.disk (b.base + (tail + 1 + r.entry.blocks)) = zeroSector
        rw [hbehind _ (by omega)]
        exact hend hlt
      · exact Or.inl (by omega)
  refine ⟨h', fun name hn => ?_, ?_⟩
  · cases hok : zssNameOk name with
    | none => rw [zssLookup_invalid hok, zssLookup_invalid hok]
    | some n =>
      have hsome : (zssNameOk name).isSome := by rw [hok]; rfl
      rw [zssLookup_eq h hsome, zssLookup_eq h' hsome, lastWrite_concat, if_neg (Ne.symm hn)]
      refine recordLookup_congr fun r' hr' i _ hi => ?_
      obtain ⟨-, h2, -⟩ := h.log.mem hsec (lastWrite_mem LogRecord.name hr').1
      exact hagree i (by omega)
  · rw [zssLookup_eq h' hname, lastWrite_concat, if_pos rfl, ← hview]
    refine recordLookup_congr fun r' hr' i h1 _ => ?_
    cases hr'
    exact hbehind i (by omega)

/-- What a machine started after a cut during an append finds. -/
theorem Appends.crash {m m' m'' : Machine} {b : Bank} {rs : List LogRecord} {tail : ℕ} {code : ℤ}
    {r : LogRecord} {post : Lookup} {evs : List (Event Sector)} (h : Holds m b rs tail)
    (happ : Appends (m.select b) m' tail code r post) (htrace : m'.trace = m.trace ++ evs)
    (hvb : m''.vb = m.vb) (hcrash : CrashImage m.vb.flushSupported m.disk evs m''.disk) :
    (Holds m'' b rs tail ∧ ∀ name, zssLookup m'' name = zssLookup m name) ∨
    (Holds m'' b (rs ++ [r]) (tail + 1 + r.entry.blocks) ∧
      (∀ name, name ≠ r.name → zssLookup m'' name = zssLookup m name) ∧
      zssLookup m'' r.name = post) := by
  cases happ with
  | failed evs' ran within _ =>
    obtain rfl : evs' = evs := List.append_cancel_left (ran.trace.symm.trans htrace)
    exact Or.inl (h.beyond_tail hvb fun a ha => hcrash.off within ha)
  | published body header flushed ran within room decodes ended view _ _ _ _ =>
    obtain rfl := List.append_cancel_left (ran.trace.symm.trans htrace)
    rcases crash_publish within hcrash with hoff | hall
    · exact Or.inl (h.beyond_tail hvb hoff)
    · exact Or.inr (h.published hvb room (fun a ha => replay_off within _ ha) hall decodes ended view)

/-- A call that returned 0 on a device that can flush has published its record for
good. -/
theorem Appends.certain {m m' m'' : Machine} {b : Bank} {rs : List LogRecord} {tail : ℕ}
    {r : LogRecord} {post : Lookup} {evs : List (Event Sector)} (h : Holds m b rs tail)
    (happ : Appends (m.select b) m' tail 0 r post) (htrace : m'.trace = m.trace ++ evs)
    (hvb : m''.vb = m.vb) (hflush : m.vb.flushSupported = true)
    (hp : Persisted true m.disk evs m''.disk) : zssLookup m'' r.name = post := by
  cases happ with
  | failed _ _ _ hcode => exact absurd rfl hcode
  | published body header flushed ran within room decodes ended view hcode _ _ _ =>
    obtain rfl := List.append_cancel_left (ran.trace.symm.trans htrace)
    rw [hcode rfl, show (m.select b).vb.flushSupported = true from hflush] at hp
    exact (h.published hvb room (fun a ha => replay_off within _ ha) (publish_certain hp) decodes
      ended view).2.2

/-- Without a cut, a call that returned 0 leaves its record in the log. -/
theorem Appends.done {m m' : Machine} {b : Bank} {rs : List LogRecord} {tail : ℕ}
    {r : LogRecord} {post : Lookup} (h : Holds m b rs tail)
    (happ : Appends (m.select b) m' tail 0 r post) :
    Holds m' b (rs ++ [r]) (tail + 1 + r.entry.blocks) ∧
      (∀ name, name ≠ r.name → zssLookup m' name = zssLookup m name) ∧
      zssLookup m' r.name = post := by
  cases happ with
  | failed _ _ _ hcode => exact absurd rfl hcode
  | published body header flushed ran within room decodes ended view _ _ _ _ =>
    refine h.published ran.vb room (fun a ha => replay_off within _ ha) ?_ decodes ended view
    rw [ran.disk, replay_publication]
    rfl

/-! ## The theorem -/

/-- A call that appends to the log. -/
inductive AppendCall where
  | put (name src : List UInt8)
  | delete (name : List UInt8)
  | upload (name : List UInt8) (length expectedCrc : ℕ) (chunks : List (List UInt8))

namespace AppendCall

/-- The call, issued on a machine. -/
def run : AppendCall → Machine → ℤ × Machine
  | put name src, m => zssPut m name src
  | delete name, m => zssDelete m name
  | upload name length expectedCrc chunks, m => zssUpload m name length expectedCrc chunks

/-- The name the call is about. -/
def name : AppendCall → List UInt8
  | put name _ => name
  | delete name => name
  | upload name _ _ _ => name

/-- The view of that name once the call has succeeded. -/
def result : AppendCall → Lookup
  | put _ src => fileLookup src.length (zssCrc src).toNat src
  | delete _ => deletedLookup
  | upload _ length expectedCrc chunks =>
      fileLookup length expectedCrc (acceptedBytes length [] chunks)

/-- The record the call publishes at `tail`. -/
def record (tail : ℕ) : AppendCall → LogRecord
  | put name src => putRecord tail name src
  | delete name => deleteRecord tail name
  | upload name length expectedCrc _ => uploadRecord tail length expectedCrc name

theorem name_record (tail : ℕ) (call : AppendCall) : (call.record tail).name = call.name := by
  cases call <;> rfl

/-- Every call is an append, or fails before it does anything. -/
theorem appends {m : Machine} {b : Bank} {rs : List LogRecord} {tail : ℕ}
    (h : Holds m b rs tail) (call : AppendCall) :
    (call.run m).2 = m ∧ (call.run m).1 ≠ 0 ∨
      Appends (m.select b) (call.run m).2 tail (call.run m).1 (call.record tail) call.result := by
  cases call with
  | put name src => exact zssPut_appends h name src
  | delete name => exact zssDelete_appends h name
  | upload name length expectedCrc chunks => exact zssUpload_appends h name length expectedCrc chunks

end AppendCall

/-- **Append crash atomicity.**  Start a machine on an image that scans, issue one
append, cut the power anywhere and start again: the log is undamaged, every other name
is as before, and the name of the call is as before or as the call leaves it.  Once the
call has returned 0 on a device that can flush, it is as the call leaves it. -/
theorem append_crash_atomic (vb : VirtioBlk) (outcome outcome' : ℕ → Outcome)
    (d d' : Disk Sector) (call : AppendCall)
    (hscan : 0 ≤ (zssFind (boot vb outcome d) none).1.status)
    (hcrash : CrashImage vb.flushSupported d (call.run (boot vb outcome d)).2.trace d') :
    0 ≤ (zssFind (boot vb outcome' d') none).1.status ∧
      (∀ n, n ≠ call.name →
        zssLookup (boot vb outcome' d') n = zssLookup (boot vb outcome d) n) ∧
      (zssLookup (boot vb outcome' d') call.name = zssLookup (boot vb outcome d) call.name ∨
        zssLookup (boot vb outcome' d') call.name = call.result) ∧
      ((call.run (boot vb outcome d)).1 = 0 →
        zssLookup (call.run (boot vb outcome d)).2 call.name = call.result ∧
        (vb.flushSupported = true →
          Persisted true d (call.run (boot vb outcome d)).2.trace d' →
          zssLookup (boot vb outcome' d') call.name = call.result)) := by
  obtain ⟨b, rs, tail, h⟩ := exists_holds hscan
  have hscans : ∀ {rs' : List LogRecord} {tail' : ℕ}, Holds (boot vb outcome' d') b rs' tail' →
      0 ≤ (zssFind (boot vb outcome' d') none).1.status := by
    intro rs' tail' h'
    rw [zssFind_eq h' (by simp)]
    exact le_refl _
  rcases call.appends h with ⟨hsame, hcode⟩ | happ
  · -- the call failed before its first write: there is nothing a cut could leave behind
    rw [hsame] at hcrash ⊢
    obtain ⟨h', hview⟩ := @Holds.beyond_tail _ (boot vb outcome' d') _ _ _ h rfl
      fun a ha => hcrash.off (by simp [boot]) ha
    exact ⟨hscans h', fun n _ => hview n, Or.inl (hview _), fun h0 => absurd h0 hcode⟩
  · have hname := call.name_record tail
    have hcut := @Appends.crash _ _ (boot vb outcome' d') _ _ _ _ _ _ _ h happ rfl rfl hcrash
    have hlast : (call.run (boot vb outcome d)).1 = 0 →
        zssLookup (call.run (boot vb outcome d)).2 call.name = call.result ∧
        (vb.flushSupported = true →
          Persisted true d (call.run (boot vb outcome d)).2.trace d' →
          zssLookup (boot vb outcome' d') call.name = call.result) := by
      intro h0
      rw [h0] at happ
      rw [← hname]
      refine ⟨(happ.done h).2.2, fun hflush hp => ?_⟩
      exact @Appends.certain _ _ (boot vb outcome' d') _ _ _ _ _ _ h happ rfl rfl hflush hp
    rcases hcut with ⟨h', hview⟩ | ⟨h', hother, htarget⟩
    · exact ⟨hscans h', fun n _ => hview n, Or.inl (hview _), hlast⟩
    · rw [hname] at hother htarget
      exact ⟨hscans h', hother, Or.inr htarget, hlast⟩

/-- A device of full size that can flush. -/
def fullDevice : VirtioBlk := ⟨true, true, zealSrcShadowLba + zealSrcShadowSects, true⟩

/-- One byte put on a fresh image, and a cut that loses nothing. -/
theorem append_crash_atomic_freshDisk :
    ∃ d', CrashImage true freshDisk
        ((AppendCall.put [65] [7]).run (boot fullDevice (fun _ => .done) freshDisk)).2.trace d' ∧
      0 ≤ (zssFind (boot fullDevice (fun _ => .done) d') none).1.status ∧
      (zssLookup (boot fullDevice (fun _ => .done) d') [65] =
          zssLookup (boot fullDevice (fun _ => .done) freshDisk) [65] ∨
        zssLookup (boot fullDevice (fun _ => .done) d') [65] =
          (AppendCall.put [65] [7]).result) := by
  have hscan : 0 ≤ (zssFind (boot fullDevice (fun _ => .done) freshDisk) none).1.status := by
    rw [zssFind_eq (holds_freshDisk _ rfl (le_refl _)) (by simp)]
    exact le_refl _
  have hcrash := (Persisted.all fullDevice.flushSupported freshDisk
    ((AppendCall.put [65] [7]).run (boot fullDevice (fun _ => .done) freshDisk)).2.trace).crashImage
  generalize replay _ freshDisk = d' at hcrash
  obtain ⟨h1, -, h3, -⟩ := append_crash_atomic fullDevice (fun _ => .done) (fun _ => .done)
    freshDisk d' (AppendCall.put [65] [7]) hscan hcrash
  exact ⟨d', hcrash, h1, h3⟩

end ZealBringup.Store
