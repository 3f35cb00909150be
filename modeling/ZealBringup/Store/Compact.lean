import ZealBringup.Store.Crash

/-!
# Compaction and the two banks

`zss_compact` walks the log twice.  The first walk only reads; the second copies
the newest record of each name to the other bank, and one superblock write then
switches banks.

* `zssIsLatest_eq` — the nested scan decides whether a later record shadows this
  one.
* `zssCompactCheck_spec`, `zssCompactCopy_spec` — what the two walks compute and
  write.
* `CopiedAt` — the target holds copies of these records, and with a terminator
  they are a log with the same meaning (`CopiedAt.logAt`, `CopiedAt.lookup`).
* `compact_crash_safe` — the catalog is the same after a cut at any point.
-/

set_option maxRecDepth 10000

namespace ZealBringup.Store

open CrashDisk LastWrite

/-! ## Records in another place -/

/-- The record with its header at `pos`. -/
def LogRecord.moveTo (r : LogRecord) (pos : ℕ) : LogRecord :=
  { r with entry := { r.entry with headerSector := pos } }

/-- The records laid out one behind the other from `pos` on. -/
def relocate : ℕ → List LogRecord → List LogRecord
  | _, [] => []
  | pos, r :: rs => r.moveTo pos :: relocate (pos + 1 + r.entry.blocks) rs

/-- The sectors a list of records takes up. -/
def span (rs : List LogRecord) : ℕ := (rs.map fun r => 1 + r.entry.blocks).sum

@[simp] theorem span_nil : span [] = 0 := rfl

@[simp] theorem span_cons (r : LogRecord) (rs : List LogRecord) :
    span (r :: rs) = 1 + r.entry.blocks + span rs := rfl

variable {rs : List LogRecord}

theorem span_sublist {rs' : List LogRecord} (h : rs.Sublist rs') : span rs ≤ span rs' :=
  List.Sublist.sum_le_sum (h.map _) (fun _ _ => Nat.zero_le _)

theorem map_name_relocate (pos : ℕ) (rs : List LogRecord) :
    (relocate pos rs).map LogRecord.name = rs.map LogRecord.name := by
  induction rs generalizing pos with
  | nil => rfl
  | cons r rs ih =>
    rw [relocate, List.map_cons, List.map_cons, ih]
    rfl

variable {tail : ℕ}

/-- A log takes up the sectors of its records. -/
theorem LogAt.tail_eq {sectors pos : ℕ} {rd : ℕ → Sector} (h : LogAt sectors rd pos rs tail) :
    tail = pos + span rs := by
  induction h with
  | full => rfl
  | empty => rfl
  | record _ _ _ ih =>
    rw [ih, span_cons]
    omega

/-- A header means the same at any place where its record fits. -/
theorem zssDecodeRecord_moveTo {sectors pos pos' : ℕ} {s : Sector} {r : LogRecord}
    (h : zssDecodeRecord sectors s pos = some r) (hsec : sectors < 2 ^ 32)
    (hfit : pos' + 1 + r.entry.blocks ≤ sectors) :
    zssDecodeRecord sectors s pos' = some (r.moveTo pos') := by
  unfold zssDecodeRecord at h
  by_cases hbad : BadHeader sectors s pos
  · rw [if_pos hbad] at h
    cases h
  · rw [if_neg hbad] at h
    by_cases hname : (zssNameOk (cString (s.slice 32 (zssU32 s 20)))).isNone = true
    · simp only [if_pos hname] at h
      cases h
    · simp only [if_neg hname, Option.some.injEq] at h
      subst h
      have hfit' : (pos' + 1 + zssU32 s 16) % 2 ^ 32 ≤ sectors := by
        rw [Nat.mod_eq_of_lt (lt_of_le_of_lt hfit hsec)]
        exact hfit
      have hgood : ¬BadHeader sectors s pos' := by
        simp only [BadHeader, not_or] at hbad ⊢
        exact ⟨hbad.1, hbad.2.1, hbad.2.2.1, not_lt.2 hfit', hbad.2.2.2.2⟩
      rw [zssDecodeRecord, if_neg hgood]
      simp only [if_neg hname]
      rfl

/-! ## Copies -/

/-- From `pos` on, `dst` holds copies of the records `rs` of `src`, up to `next`. -/
inductive CopiedAt (src dst : ℕ → Sector) : ℕ → List LogRecord → ℕ → Prop
  | nil {pos : ℕ} : CopiedAt src dst pos [] pos
  | cons {pos next : ℕ} {r : LogRecord} {rs : List LogRecord}
      (hr : ∀ i ≤ r.entry.blocks, dst (pos + i) = src (r.entry.headerSector + i))
      (hrest : CopiedAt src dst (pos + 1 + r.entry.blocks) rs next) :
      CopiedAt src dst pos (r :: rs) next

namespace CopiedAt

variable {src dst dst' : ℕ → Sector} {pos next : ℕ} {rs : List LogRecord}

theorem next_eq (h : CopiedAt src dst pos rs next) : next = pos + span rs := by
  induction h with
  | nil => rfl
  | cons _ _ ih =>
    rw [ih, span_cons]
    omega

/-- The copies only depend on the sectors they lie in. -/
theorem frame (h : CopiedAt src dst pos rs next)
    (hagree : ∀ i, pos ≤ i → i < next → dst' i = dst i) : CopiedAt src dst' pos rs next := by
  induction h with
  | nil => exact nil
  | @cons pos next r rs hr hrest ih =>
    have hnext := hrest.next_eq
    refine cons (fun i hi => ?_) (ih fun i h1 h2 => hagree i (by omega) h2)
    rw [hagree _ (by omega) (by omega)]
    exact hr i hi

/-- Copies of decodable records, with a terminator, are a log. -/
theorem logAt {sectors : ℕ} (h : CopiedAt src dst pos rs next) (hsec : sectors < 2 ^ 32)
    (hdec : ∀ r ∈ rs, zssDecodeRecord sectors (src r.entry.headerSector) r.entry.headerSector
      = some r)
    (hfit : next ≤ sectors) (hend : next < sectors → dst next = zeroSector) :
    LogAt sectors dst pos (relocate pos rs) next := by
  induction h with
  | @nil pos =>
    by_cases hlt : pos < sectors
    · exact LogAt.empty hlt (hend hlt)
    · exact LogAt.full (by omega)
  | @cons pos next r rs hr hrest ih =>
    have hnext := hrest.next_eq
    refine LogAt.record (r := r.moveTo pos) (by omega) ?_
      (ih (fun r' h' => hdec r' (List.mem_cons_of_mem _ h')) hfit hend)
    have h0 := hr 0 (Nat.zero_le _)
    rw [Nat.add_zero, Nat.add_zero] at h0
    rw [h0]
    exact zssDecodeRecord_moveTo (hdec r (List.mem_cons_self ..)) hsec (by omega)

/-- A name looks the same in the copies as in the originals. -/
theorem lookup (h : CopiedAt src dst pos rs next) (name : List UInt8) :
    recordLookup dst (lastWrite LogRecord.name name (relocate pos rs)) =
      recordLookup src (lastWrite LogRecord.name name rs) := by
  induction h with
  | nil => rfl
  | @cons pos next r rs hr hrest ih =>
    rw [relocate, lastWrite_cons, lastWrite_cons]
    -- a later record of the name wins on both sides
    have hsame := @lastWrite_eq_none_congr _ _ _ LogRecord.name name _ _
      (map_name_relocate (pos + 1 + r.entry.blocks) rs)
    cases hlast : lastWrite LogRecord.name name rs with
    | some r' =>
      obtain ⟨q, hq⟩ := Option.ne_none_iff_exists'.1
        (mt hsame.1 (by rw [hlast]; exact Option.some_ne_none r'))
      rw [hlast, hq] at ih
      rw [hq]
      exact ih
    | none =>
      have hnone := hsame.2 hlast
      rw [hnone, Option.none_or, Option.none_or]
      by_cases hn : r.name = name
      · rw [if_pos hn, if_pos (show (r.moveTo pos).name = name from hn)]
        simp only [recordLookup]
        rw [show dataBytes dst (r.moveTo pos).entry = dataBytes src r.entry from
          dataBytes_congr rfl rfl fun b hb => by
            show dst (pos + 1 + b) = _
            rw [Nat.add_assoc, hr _ (by omega), Nat.add_assoc]]
        rfl
      · rw [if_neg hn, if_neg (show ¬(r.moveTo pos).name = name from hn)]
        rfl

end CopiedAt

/-! ## The two banks -/

/-- The sectors `lo` to `hi` of the bank at `base`. -/
def stretch (base lo hi : ℕ) : Set ℕ := {a | ∃ i, lo ≤ i ∧ i < hi ∧ a = base + i}

theorem stretch_mono {base lo lo' hi hi' : ℕ} (h : lo' ≤ lo) (h' : hi ≤ hi') :
    stretch base lo hi ⊆ stretch base lo' hi' := by
  rintro a ⟨i, h1, h2, rfl⟩
  exact ⟨i, by omega, by omega, rfl⟩

theorem not_mem_stretch {base lo hi i : ℕ} (h : i < lo ∨ hi ≤ i) : base + i ∉ stretch base lo hi := by
  rintro ⟨j, h1, h2, h3⟩
  omega

/-- The bank a compaction of `b` goes to, at the next generation. -/
def Bank.next (b : Bank) : Bank :=
  ⟨(zssOtherBank b.base).1, (zssOtherBank b.base).2, b.generation + 1⟩

variable {b : Bank}

theorem Bank.next_eq (hb : b = bankA b.generation ∨ b = bankB b.generation) :
    b = bankA b.generation ∧ b.next = bankB (b.generation + 1) ∨
      b = bankB b.generation ∧ b.next = bankA (b.generation + 1) := by
  rcases hb with hb | hb
  · left
    refine ⟨hb, ?_⟩
    rw [hb]
    rfl
  · right
    refine ⟨hb, ?_⟩
    rw [hb]
    rfl

/-- The two banks have the same size and do not overlap. -/
theorem Bank.next_apart (hb : b = bankA b.generation ∨ b = bankB b.generation) :
    b.next.sectors = 65536 ∧ b.next.base ≠ b.base ∧
      ∀ i < 65536, b.base + i ∉ stretch b.next.base 0 65536 := by
  rcases Bank.next_eq hb with ⟨h1, h2⟩ | ⟨h1, h2⟩
  · rw [h2, h1]
    refine ⟨rfl, show zealSrcShadowLba ≠ zealSrcLbaBase by decide, ?_⟩
    rintro i hi ⟨j, -, hj, hij⟩
    simp only [bankA, bankB, zealSrcLbaBase, zealSrcShadowLba] at hij
    omega
  · rw [h2, h1]
    refine ⟨rfl, show zealSrcLbaBase ≠ zealSrcShadowLba by decide, ?_⟩
    rintro i hi ⟨j, -, hj, hij⟩
    simp only [bankA, bankB, zealSrcLbaBase, zealSrcShadowLba] at hij
    omega

variable {m : Machine}

/-- The probe of the selected bank finds its generation. -/
theorem Selects.generation (h : Selects m b) :
    superGeneration b.sectors (m.disk b.base) = some b.generation := by
  obtain ⟨hready, hbest⟩ := selects_iff.1 h
  have hprobe : ∀ {base sectors g : ℕ}, 0 < sectors → zssProbeBank m base sectors = some g →
      superGeneration sectors (m.disk base) = some g := by
    intro base sectors g hpos hg
    rw [zssProbeBank_eq hready _ hpos] at hg
    split at hg
    · cases hg
    · exact hg
  cases hA : zssProbeBank m zealSrcLbaBase zealSrcSects with
  | none =>
    cases hB : zssProbeBank m zealSrcShadowLba zealSrcShadowSects with
    | none =>
      rw [hA, hB] at hbest
      cases hbest
    | some g' =>
      rw [hA, hB] at hbest
      cases hbest
      exact @hprobe zealSrcShadowLba zealSrcShadowSects _ (by decide) hB
  | some g =>
    cases hB : zssProbeBank m zealSrcShadowLba zealSrcShadowSects with
    | none =>
      rw [hA, hB] at hbest
      cases hbest
      exact @hprobe zealSrcLbaBase zealSrcSects _ (by decide) hA
    | some g' =>
      rw [hA, hB] at hbest
      simp only [bestBank] at hbest
      split at hbest
      · cases hbest
        exact @hprobe zealSrcShadowLba zealSrcShadowSects _ (by decide) hB
      · cases hbest
        exact @hprobe zealSrcLbaBase zealSrcSects _ (by decide) hA

variable {m' : Machine}

/-- **The switch.**  A superblock of the next generation on the other bank selects it. -/
theorem Selects.switch (h : Selects m b) (hvb : m'.vb = m.vb)
    (hcap : b.next.base + b.next.sectors ≤ m.vb.fullCapacity)
    (hsrc : m'.disk b.base = m.disk b.base)
    (hdst : superGeneration b.next.sectors (m'.disk b.next.base) = some (b.generation + 1)) :
    Selects m' b.next := by
  obtain ⟨hb, -, hready, hcap'⟩ := h.bank
  have hgen := h.generation
  have hready' : m'.vb.absoluteReady = true := by rw [hvb]; exact hready
  have hprobe : ∀ {base sectors g : ℕ}, 0 < sectors → base + sectors ≤ m.vb.fullCapacity →
      superGeneration sectors (m'.disk base) = some g → zssProbeBank m' base sectors = some g := by
    intro base sectors g hpos hle hg
    rw [zssProbeBank_eq hready' _ hpos, hvb, if_neg (by omega), hg]
  rw [← hsrc] at hgen
  rw [selects_iff]
  refine ⟨hready', ?_⟩
  rcases Bank.next_eq hb with ⟨h1, h2⟩ | ⟨h1, h2⟩
  · rw [h2] at hdst hcap ⊢
    rw [h1] at hgen hcap'
    rw [@hprobe zealSrcLbaBase zealSrcSects _ (by decide) hcap' hgen,
      @hprobe zealSrcShadowLba zealSrcShadowSects _ (by decide) hcap hdst, bestBank]
    exact if_pos (Nat.lt_succ_self _)
  · rw [h2] at hdst hcap ⊢
    rw [h1] at hgen hcap'
    rw [@hprobe zealSrcLbaBase zealSrcSects _ (by decide) hcap hdst,
      @hprobe zealSrcShadowLba zealSrcShadowSects _ (by decide) hcap' hgen, bestBank]
    exact if_neg (not_lt.2 (Nat.le_succ _))

/-- What is written to the data sectors of the other bank does not matter. -/
theorem Holds.other_bank (h : Holds m b rs tail) (hvb : m'.vb = m.vb)
    (hoff : ∀ a ∉ stretch b.next.base 1 65536, m'.disk a = m.disk a) :
    Holds m' b rs tail ∧ ∀ name, zssLookup m' name = zssLookup m name := by
  obtain ⟨hb, hsec, -⟩ := h.selects.bank
  obtain ⟨-, hne, hapart⟩ := Bank.next_apart hb
  have hlen := h.tail_le
  have hsrc : ∀ i < 65536, m'.disk (b.base + i) = m.disk (b.base + i) :=
    fun i hi => hoff _ fun hmem => hapart i hi (stretch_mono (by omega) (le_refl _) hmem)
  have hsrc0 : m'.disk b.base = m.disk b.base := hsrc 0 (by omega)
  have hdst0 : m'.disk b.next.base = m.disk b.next.base :=
    hoff _ (not_mem_stretch (i := 0) (Or.inl (by omega)))
  have hsel : Selects m' b := by
    rcases Bank.next_eq hb with ⟨h1, h2⟩ | ⟨h1, h2⟩
    · rw [h2] at hdst0
      rw [h1] at hsrc0
      exact h.selects.congr hvb hsrc0 hdst0
    · rw [h2] at hdst0
      rw [h1] at hsrc0
      exact h.selects.congr hvb hdst0 hsrc0
  have h' : Holds m' b rs tail := by
    refine ⟨hsel, h.log.frame (fun i _ hi => hsrc i (by omega)) fun ht => ?_⟩
    show m'.disk (b.base + tail) = zeroSector
    rw [hsrc _ (by omega)]
    exact h.log.tail_zero ht
  exact ⟨h', zssLookup_congr h h' fun i hi => hsrc i (by omega)⟩

/-! ## The checking walk -/

/-- **The nested scan.**  It finds the name, and it finds this very record exactly when
no later record shadows it. -/
theorem zssIsLatest_eq {pre suf : List LogRecord} {r : LogRecord}
    (h : Holds m b (pre ++ r :: suf) tail)
    (hsuf : LogAt b.sectors (fun i => m.disk (b.base + i)) (r.entry.headerSector + 1 + r.entry.blocks) suf tail)
    (hname : (zssNameOk r.name).isSome) :
    ∃ latest, zssFind m (some r.name) = (latest, m.select b) ∧
      (latest.status = 1 ∨ latest.status = -3) ∧
      zssIsLatest latest r.entry.headerSector r =
        decide (lastWrite LogRecord.name r.name suf = none) := by
  refine ⟨_, zssFind_eq h fun n hn => by cases hn; exact hname, ?_⟩
  have hstatus : ∀ q : LogRecord, statusOf 0 (some q) = 1 ∨ statusOf 0 (some q) = -3 := by
    intro q
    rw [statusOf]
    by_cases hq : q.deleted = true
    · rw [if_pos hq]
      exact Or.inr rfl
    · rw [if_neg hq]
      exact Or.inl rfl
  simp only [Option.bind_some, lastWrite_append, lastWrite_cons, if_true]
  cases hlast : lastWrite LogRecord.name r.name suf with
  | none =>
    refine ⟨hstatus r, ?_⟩
    simp [zssIsLatest, statusOf]
  | some q =>
    refine ⟨hstatus q, ?_⟩
    have hsec : b.sectors < 2 ^ 31 := by rw [h.selects.bank.2.1]; norm_num
    obtain ⟨hq, -⟩ := hsuf.mem hsec (lastWrite_mem LogRecord.name hlast).1
    have hne : q.entry.headerSector ≠ r.entry.headerSector := by omega
    simp [zssIsLatest, hne]

/-- The checking walk changes nothing.  If it succeeds it has counted the records that
are kept, and they fit. -/
theorem zssCompactCheck_spec {m : Machine} {b : Bank} {rs : List LogRecord} {tail : ℕ}
    (h : Holds m b rs tail) (hsel : m.select b = m) (targetSectors : ℕ)
    {pos : ℕ} {pre suf : List LogRecord} (hsplit : rs = pre ++ suf)
    (hlog : LogAt b.sectors (fun i => m.disk (b.base + i)) pos suf tail)
    (fuel need kept : ℕ) (hfuel : tail ≤ pos + fuel) :
    ∃ res, zssCompactCheck targetSectors tail fuel pos need kept m = (res, m) ∧
      (∀ c, res = .error c → c ≠ 0) ∧ ∀ n k, res = .ok (n, k) → n = need + span (keepLatest LogRecord.name suf) ∧
        (need ≤ targetSectors → n ≤ targetSectors) := by
  have hstop : ∀ fuel need kept, zssCompactCheck targetSectors tail fuel tail need kept m
      = (.ok (need, kept), m) := by
    intro fuel need kept
    cases fuel with
    | zero => rfl
    | succ fuel => rw [zssCompactCheck, if_neg (lt_irrefl _)]
  induction hlog generalizing pre fuel need kept with
  | full =>
    refine ⟨_, hstop _ _ _, (fun c hc => by cases hc), fun n k hnk => ?_⟩
    cases hnk
    exact ⟨rfl, id⟩
  | empty =>
    refine ⟨_, hstop _ _ _, (fun c hc => by cases hc), fun n k hnk => ?_⟩
    cases hnk
    exact ⟨rfl, id⟩
  | @record pos tail r suf hlt hr hrest ih =>
    have hsec : b.sectors < 2 ^ 31 := by rw [h.selects.bank.2.1]; norm_num
    have hle := hrest.le_tail
    obtain ⟨hpos, -, -, -, -, hname⟩ := zssDecodeRecord_some hr (by omega)
    obtain ⟨k, rfl⟩ : ∃ k, fuel = k + 1 := ⟨fuel - 1, by omega⟩
    have hread : ((zssSectorRead m pos).bind fun header =>
        zssDecodeRecord m.zssSectors header pos) = some r := by
      have hb : m.zssBase = b.base ∧ m.zssSectors = b.sectors := by rw [← hsel]; exact ⟨rfl, rfl⟩
      have hm : Readable m := by rw [← hsel]; exact h.selects.readable
      rw [zssSectorRead_eq hm (by rw [hb.2]; exact hlt), Option.bind_some, Machine.bank, hb.1, hb.2]
      exact hr
    rw [hsplit] at h
    rw [← hpos] at hrest
    obtain ⟨latest, hfind, hstatus, hlatest⟩ := zssIsLatest_eq h hrest hname
    rw [hsel] at hfind
    rw [hpos] at hlatest hrest
    have hsplit' : rs = (pre ++ [r]) ++ suf := by rw [hsplit]; simp
    have hnext := fun need kept => ih (by rw [hsplit]; exact h) hsplit' k need kept (by omega) hstop
    rw [zssCompactCheck, if_pos (by omega), hread]
    simp only [hfind]
    rw [if_neg (by rcases hstatus with hs | hs <;> rw [hs] <;> norm_num), hlatest, keepLatest_cons]
    by_cases hlast : lastWrite LogRecord.name r.name suf = none
    · rw [if_pos (by simpa using hlast), if_pos hlast]
      by_cases hbad : r.deleted = false ∧ zssVerify m r.entry ≠ 0
      · rw [if_pos hbad]
        exact ⟨_, rfl, (fun c hc => by cases hc; norm_num), fun n k hnk => by cases hnk⟩
      · rw [if_neg hbad]
        by_cases hfull : need + 1 + r.entry.blocks > targetSectors
        · rw [if_pos hfull]
          exact ⟨_, rfl, (fun c hc => by cases hc; norm_num), fun n k hnk => by cases hnk⟩
        · rw [if_neg hfull]
          obtain ⟨res, heq, herr, hres⟩ := hnext (need + 1 + r.entry.blocks) (kept + 1)
          refine ⟨res, heq, herr, fun n k hnk => ?_⟩
          obtain ⟨h1, h2⟩ := hres n k hnk
          rw [span_cons]
          exact ⟨by omega, fun _ => h2 (by omega)⟩
    · rw [if_neg (by simpa using hlast), if_neg hlast]
      exact hnext need kept

/-! ## The copying walk -/

/-- One record goes to the target sector by sector. -/
theorem zssCopyRecord_spec {target pos next : ℕ} (n b : ℕ) (m : Machine)
    (hfit : pos + b + n ≤ m.zssSectors)
    (hapart : ∀ i < m.zssSectors, m.zssBase + i ∉ stretch target (next + b) (next + b + n)) :
    ∃ evs, Ran m (zssCopyRecord target pos next n b m).2 evs ∧
      (∀ e ∈ evs, e.Within (stretch target (next + b) (next + b + n))) ∧
      ((zssCopyRecord target pos next n b m).1 = true → ∀ i, b ≤ i → i < b + n →
        (zssCopyRecord target pos next n b m).2.disk (target + (next + i)) =
          m.disk (m.zssBase + (pos + i))) := by
  induction n generalizing b m with
  | zero => exact ⟨[], Ran.refl m, by simp, fun _ i h1 h2 => by omega⟩
  | succ n ih =>
    rw [zssCopyRecord]
    cases hread : zssSectorRead m (pos + b) with
    | none => exact ⟨[], Ran.refl m, by simp, by simp⟩
    | some copied =>
      have hcopied : copied = m.disk (m.zssBase + (pos + b)) := by
        unfold zssSectorRead zssBankRead virtioBlkReadAbs at hread
        split at hread
        · split at hread
          · cases hread
            rfl
          · cases hread
        · cases hread
      obtain ⟨evs₁, hran₁, hcase₁, hok₁⟩ := virtioBlkWriteAbs_ran m (target + (next + b)) copied
      have hwithin₁ : ∀ e ∈ evs₁, e.Within (stretch target (next + b) (next + b + (n + 1))) := by
        rcases hcase₁ with rfl | rfl
        · simp
        · intro e he
          rw [List.mem_singleton.1 he]
          exact ⟨next + b, le_refl _, by omega, rfl⟩
      simp only [zssBankWrite]
      cases hw : virtioBlkWriteAbs m (target + (next + b)) copied with
      | mk ok m₁ =>
        rw [hw] at hran₁ hok₁
        cases ok with
        | false => exact ⟨evs₁, hran₁, hwithin₁, by simp⟩
        | true =>
          obtain rfl := hok₁ rfl
          simp only
          cases hback : zssBankRead m₁ target (next + b) with
          | none => exact ⟨_, hran₁, hwithin₁, by simp⟩
          | some check =>
            simp only
            by_cases hsame : copied = check
            · rw [if_pos hsame]
              have hapart₁ : ∀ i < m₁.zssSectors,
                  m₁.zssBase + i ∉ stretch target (next + (b + 1)) (next + (b + 1) + n) := by
                intro i hi hmem
                rw [hran₁.sectors] at hi
                rw [hran₁.base] at hmem
                exact hapart i hi (stretch_mono (by omega) (by omega) hmem)
              obtain ⟨evs₂, hran₂, hwithin₂, hcopy₂⟩ := ih (b + 1) m₁
                (by rw [hran₁.sectors]; omega) hapart₁
              refine ⟨_, hran₁.trans hran₂, ?_, fun hok i h1 h2 => ?_⟩
              · intro e he
                rcases List.mem_append.1 he with he | he
                · exact hwithin₁ e he
                · exact (hwithin₂ e he).mono (stretch_mono (by omega) (by omega))
              · by_cases hib : i = b
                · subst hib
                  rw [hran₂.disk, replay_off hwithin₂ _ (not_mem_stretch (Or.inl (by omega))),
                    hran₁.disk, ← hcopied]
                  simp [Event.apply]
                · -- what is read later is not among the sectors written so far
                  rw [hcopy₂ hok i (by omega) (by omega), hran₁.base, hran₁.disk]
                  exact replay_off hwithin₁ _ (hapart _ (by omega))
            · rw [if_neg hsame]
              exact ⟨_, hran₁, hwithin₁, by simp⟩

/-- The copying walk writes to the data sectors of the target only.  If it succeeds, the
records that are kept are there. -/
theorem zssCompactCopy_spec {m₀ : Machine} {b : Bank} {rs : List LogRecord} {tail : ℕ}
    (h : Holds m₀ b rs tail) {pos : ℕ} {pre suf : List LogRecord} (hsplit : rs = pre ++ suf)
    (hlog : LogAt b.sectors (fun i => m₀.disk (b.base + i)) pos suf tail)
    (fuel next : ℕ) (m : Machine) (hfuel : tail ≤ pos + fuel) (hvb : m.vb = m₀.vb)
    (hsel : m.select b = m) (hoff : ∀ a ∉ stretch b.next.base 1 65536, m.disk a = m₀.disk a)
    (hnext : 1 ≤ next) (hroom : next + span (keepLatest LogRecord.name suf) ≤ 65536) :
    ∃ evs, Ran m (zssCompactCopy b.next.base tail fuel pos next m).2 evs ∧
      (∀ e ∈ evs, e.Within (stretch b.next.base next 65536)) ∧
      (∀ code, (zssCompactCopy b.next.base tail fuel pos next m).1 = .error code → code = -1) ∧
      ∀ n, (zssCompactCopy b.next.base tail fuel pos next m).1 = .ok n →
        CopiedAt (fun i => m₀.disk (b.base + i))
          (fun i => (zssCompactCopy b.next.base tail fuel pos next m).2.disk (b.next.base + i))
          next (keepLatest LogRecord.name suf) n := by
  obtain ⟨hbank, hsec, -⟩ := h.selects.bank
  obtain ⟨-, -, hapart⟩ := Bank.next_apart hbank
  have hstop : ∀ fuel next m, zssCompactCopy b.next.base tail fuel tail next m
      = (.ok next, m) := by
    intro fuel next m
    cases fuel with
    | zero => rfl
    | succ fuel => rw [zssCompactCopy, if_neg (lt_irrefl _)]
  induction hlog generalizing pre fuel next m with
  | full =>
    rw [hstop]
    refine ⟨[], Ran.refl m, by simp, (fun code hc => by cases hc), fun n hn => ?_⟩
    cases hn
    exact CopiedAt.nil
  | empty =>
    rw [hstop]
    refine ⟨[], Ran.refl m, by simp, (fun code hc => by cases hc), fun n hn => ?_⟩
    cases hn
    exact CopiedAt.nil
  | @record pos tail r suf hlt hr hrest ih =>
    have hle := hrest.le_tail
    obtain ⟨hpos, hfit, -, -, -, hname⟩ := zssDecodeRecord_some hr (by omega)
    obtain ⟨k, rfl⟩ : ∃ k, fuel = k + 1 := ⟨fuel - 1, by omega⟩
    have hcur : Holds m b rs tail := (h.other_bank hvb hoff).1
    have hbase : m.zssBase = b.base ∧ m.zssSectors = b.sectors := by
      rw [← hsel]
      exact ⟨rfl, rfl⟩
    have hsame : ∀ i < 65536, m.disk (b.base + i) = m₀.disk (b.base + i) :=
      fun i hi => hoff _ fun hmem => hapart i hi (stretch_mono (by omega) (le_refl _) hmem)
    have hread : ((zssSectorRead m pos).bind fun header =>
        zssDecodeRecord m.zssSectors header pos) = some r := by
      have hm : Readable m := by rw [← hsel]; exact hcur.selects.readable
      rw [zssSectorRead_eq hm (by rw [hbase.2]; exact hlt), Option.bind_some, Machine.bank, hbase.1,
        hbase.2, hsame _ (by omega)]
      exact hr
    have hrest' : LogAt b.sectors (fun i => m.disk (b.base + i))
        (r.entry.headerSector + 1 + r.entry.blocks) suf tail := by
      have htail := hcur.tail_le
      rw [hpos]
      refine hrest.frame (fun i _ hi => hsame i (by omega)) fun ht => ?_
      show m.disk (b.base + tail) = zeroSector
      rw [hsame _ (by omega)]
      exact hrest.tail_zero ht
    obtain ⟨latest, hfind, hstatus, hlatest⟩ := zssIsLatest_eq (by rw [← hsplit]; exact hcur) hrest'
      hname
    rw [hsel] at hfind
    rw [hpos] at hlatest
    have hsplit' : rs = (pre ++ [r]) ++ suf := by rw [hsplit]; simp
    have hgo := ih h hsplit' k
    rw [zssCompactCopy, if_pos (by omega), hread]
    simp only [hfind]
    rw [if_neg (by rcases hstatus with hs | hs <;> rw [hs] <;> norm_num), hlatest]
    rw [keepLatest_cons] at hroom ⊢
    by_cases hlast : lastWrite LogRecord.name r.name suf = none
    · rw [if_pos hlast, span_cons] at hroom
      rw [if_pos (by simpa using hlast), if_pos hlast]
      have hclear : ∀ i < m.zssSectors, m.zssBase + i ∉
          stretch b.next.base (next + 0) (next + 0 + (r.entry.blocks + 1)) := by
        intro i hi hmem
        rw [hbase.1] at hmem
        exact hapart i (by omega) (stretch_mono (by omega) (by omega) hmem)
      obtain ⟨evs₁, hran₁, hwithin₁, hcopy₁⟩ := @zssCopyRecord_spec b.next.base pos next
        (r.entry.blocks + 1) 0 m (by omega) hclear
      have hwithin₁' : ∀ e ∈ evs₁, e.Within (stretch b.next.base next 65536) :=
        fun e he => (hwithin₁ e he).mono (stretch_mono (by omega) (by omega))
      cases hres₁ : zssCopyRecord b.next.base pos next (r.entry.blocks + 1) 0 m with
      | mk ok m₁ =>
        rw [hres₁] at hran₁ hcopy₁
        cases ok with
        | false =>
          refine ⟨evs₁, hran₁, hwithin₁', fun code hc => ?_, fun n hn => by cases hn⟩
          cases hc
          rfl
        | true =>
          simp only
          have hoff₁ : ∀ a ∉ stretch b.next.base 1 65536, m₁.disk a = m₀.disk a := by
            intro a ha
            rw [hran₁.disk, replay_off hwithin₁' _ fun hmem => ha (stretch_mono hnext (le_refl _) hmem)]
            exact hoff a ha
          obtain ⟨evs₂, hran₂, hwithin₂, herr₂, hcopied₂⟩ := hgo (next + 1 + r.entry.blocks) m₁
            (by omega) (hran₁.vb.trans hvb) (hran₁.select hsel) hoff₁ (by omega) (by omega) hstop
          refine ⟨_, hran₁.trans hran₂, ?_, herr₂, fun n hn => ?_⟩
          · intro e he
            rcases List.mem_append.1 he with he | he
            · exact hwithin₁' e he
            · exact (hwithin₂ e he).mono (stretch_mono (by omega) (le_refl _))
          · refine CopiedAt.cons (fun i hi => ?_) (hcopied₂ n hn)
            have hi' := hcopy₁ rfl i (Nat.zero_le _) (by omega)
            rw [hbase.1, hsame _ (by omega)] at hi'
            rw [hpos, ← hi', hran₂.disk]
            exact replay_off hwithin₂ _ (not_mem_stretch (Or.inl (by omega)))
    · rw [if_neg hlast] at hroom
      rw [if_neg (by simpa using hlast), if_neg hlast]
      exact hgo next m (by omega) hvb hsel hoff hnext hroom hstop

/-! ## The whole call -/

/-- From `m` to `m'` the device carried out `evs`; the selected bank may have changed. -/
structure Did (m m' : Machine) (evs : List (Event Sector)) : Prop where
  vb : m'.vb = m.vb
  outcome : m'.outcome = m.outcome
  trace : m'.trace = m.trace ++ evs
  disk : m'.disk = replay evs m.disk

theorem Ran.did {evs : List (Event Sector)} (h : Ran m m' evs) : Did m m' evs :=
  ⟨h.vb, h.outcome, h.trace, h.disk⟩

theorem Did.trans {m'' : Machine} {u v : List (Event Sector)} (h : Did m m' u) (h' : Did m' m'' v) :
    Did m m'' (u ++ v) where
  vb := h'.vb.trans h.vb
  outcome := h'.outcome.trans h.outcome
  trace := by rw [h'.trace, h.trace, List.append_assoc]
  disk := by rw [h'.disk, h.disk, replay_append]

/-- Selecting a bank does nothing to the device. -/
theorem zssAvailable_did (m : Machine) : Did m (zssAvailable m).2 [] := by
  have hrefl : Did m m [] := ⟨rfl, rfl, by simp, rfl⟩
  cases hav : zssAvailable m with
  | mk ok m' =>
    cases ok with
    | true =>
      obtain ⟨b, -, rfl⟩ := exists_selects hav
      exact ⟨rfl, rfl, by simp [Machine.select], rfl⟩
    | false =>
      rw [zssAvailable_false hav]
      exact hrefl

/-- The terminator of the new log. -/
theorem terminator_ran (m : Machine) (target targetSectors next : ℕ) :
    ∃ evs, Ran m (if next < targetSectors then zssBankWrite m target next zeroSector
        else (true, m)).2 evs ∧
      (∀ e ∈ evs, e.Within (stretch target next targetSectors)) ∧
      ((if next < targetSectors then zssBankWrite m target next zeroSector
        else (true, m)).1 = true → next < targetSectors →
          replay evs m.disk (target + next) = zeroSector) := by
  by_cases hlt : next < targetSectors
  · rw [if_pos hlt, zssBankWrite]
    obtain ⟨evs, hran, hcase, hok⟩ := virtioBlkWriteAbs_ran m (target + next) zeroSector
    refine ⟨evs, hran, ?_, fun htrue _ => ?_⟩
    · rcases hcase with rfl | rfl
      · simp
      · intro e he
        rw [List.mem_singleton.1 he]
        exact ⟨next, le_refl _, hlt, rfl⟩
    · rw [hok htrue]
      simp [Event.apply]
  · rw [if_neg hlt]
    exact ⟨[], Ran.refl m, by simp, fun _ h => absurd h hlt⟩

/-- **The switch is one sector write.**  Before it only the target was written; with it,
the terminator is in place and flushed. -/
theorem zssCompactCommit_spec (m : Machine) (target targetSectors tail next kept : ℕ) :
    ∃ evs, Did m (zssCompactCommit m target targetSectors tail next kept).2.2 evs ∧
      (zssCompactCommit m target targetSectors tail next kept).1 ≠ -3 ∧
      ((∀ e ∈ evs, e.Within (stretch target next targetSectors)) ∧
          (zssCompactCommit m target targetSectors tail next kept).1 ≠ 0 ∨
        ∃ body flushed, evs = publication true body (target + 0)
            (superblock2 targetSectors (m.zssGeneration + 1)) flushed ∧
          (∀ e ∈ body, e.Within (stretch target next targetSectors)) ∧
          (next < targetSectors → replay body m.disk (target + next) = zeroSector) ∧
          ((zssCompactCommit m target targetSectors tail next kept).1 = 0 → flushed = true)) := by
  obtain ⟨evs₁, hran₁, hwithin₁, hzero₁⟩ := terminator_ran m target targetSectors next
  unfold zssCompactCommit
  cases h₁ : (if next < targetSectors then zssBankWrite m target next zeroSector else (true, m)) with
  | mk ok₁ m₁ =>
    rw [h₁] at hran₁ hzero₁
    cases ok₁ with
    | false => exact ⟨evs₁, hran₁.did, by norm_num, Or.inl ⟨hwithin₁, by norm_num⟩⟩
    | true =>
      have hran₂ := virtioBlkFlushAbs_ran m₁
      simp only
      cases h₂ : virtioBlkFlushAbs m₁ with
      | mk ok₂ m₂ =>
        rw [h₂] at hran₂
        cases ok₂ with
        | false =>
          have hran := hran₁.trans hran₂
          simp only [Bool.false_eq_true, if_false, List.append_nil] at hran
          exact ⟨evs₁, hran.did, by norm_num, Or.inl ⟨hwithin₁, by norm_num⟩⟩
        | true =>
          have hran := hran₁.trans hran₂
          rw [if_pos rfl] at hran
          have hwithin : ∀ e ∈ evs₁ ++ [Event.flush],
              e.Within (stretch target next targetSectors) := by
            intro e he
            rcases List.mem_append.1 he with he | he
            · exact hwithin₁ e he
            · rw [List.mem_singleton.1 he]
              trivial
          obtain ⟨evs₃, hran₃, hcase₃, hok₃⟩ := virtioBlkWriteAbs_ran m₂ (target + 0)
            (superblock2 targetSectors (m₂.zssGeneration + 1))
          simp only [zssBankWrite]
          cases h₃ : virtioBlkWriteAbs m₂ (target + 0)
              (superblock2 targetSectors (m₂.zssGeneration + 1)) with
          | mk ok₃ m₃ =>
            rw [h₃] at hran₃ hok₃
            rw [hran.generation] at hcase₃ hok₃
            cases ok₃ with
            | false =>
              refine ⟨_, (hran.trans hran₃).did, by norm_num, ?_⟩
              -- a failed write of the superblock may have landed all the same
              rcases hcase₃ with rfl | rfl
              · rw [List.append_nil]
                exact Or.inl ⟨hwithin, by norm_num⟩
              · exact Or.inr ⟨evs₁, false, by simp [publication], hwithin₁, hzero₁ rfl,
                  by norm_num⟩
            | true =>
              obtain rfl := hok₃ rfl
              have hran₄ := virtioBlkFlushAbs_ran m₃
              simp only
              cases h₄ : virtioBlkFlushAbs m₃ with
              | mk ok₄ m₄ =>
                rw [h₄] at hran₄
                have hall := (hran.trans hran₃).trans hran₄
                cases ok₄ with
                | false =>
                  exact ⟨_, hall.did, by norm_num, Or.inr ⟨evs₁, false, by simp [publication],
                    hwithin₁, hzero₁ rfl, by norm_num⟩⟩
                | true =>
                  have hav := hall.did.trans (zssAvailable_did m₄)
                  rw [List.append_nil] at hav
                  simp only
                  split
                  · exact ⟨_, hav, by norm_num, Or.inr ⟨evs₁, true, by simp [publication],
                      hwithin₁, hzero₁ rfl, fun _ => rfl⟩⟩
                  · exact ⟨_, hav, by norm_num, Or.inr ⟨evs₁, true, by simp [publication],
                      hwithin₁, hzero₁ rfl, fun _ => rfl⟩⟩

/-- What the part of a compaction behind the checks may do: write to the data sectors of
the other bank; or copy there what is kept, and switch. -/
inductive Moves (m m' : Machine) (b : Bank) (rs : List LogRecord) (code : ℤ) : Prop
  | failed (evs : List (Event Sector)) (did : Did m m' evs)
      (within : ∀ e ∈ evs, e.Within (stretch b.next.base 1 65536)) (hcode : code ≠ 0)
  | switched (body : List (Event Sector)) (flushed : Bool) (next : ℕ)
      (did : Did m m' (publication true body (b.next.base + 0)
        (superblock2 b.next.sectors (b.generation + 1)) flushed))
      (within : ∀ e ∈ body, e.Within (stretch b.next.base 1 65536))
      (copied : CopiedAt (fun i => m.disk (b.base + i))
        (fun i => replay body m.disk (b.next.base + i)) 1 (keepLatest LogRecord.name rs) next)
      (room : next ≤ b.next.sectors)
      (ended : next < b.next.sectors → replay body m.disk (b.next.base + next) = zeroSector)
      (hcode : code = 0 → flushed = true)

theorem zssCompactMove_moves {need : ℕ} (h : Holds m b rs tail) (hsel : m.select b = m) (kept : ℕ)
    (hneed : need = 1 + span (keepLatest LogRecord.name rs)) (hroom : need ≤ b.next.sectors) :
    Moves m (zssCompactMove m b.next.base b.next.sectors tail need kept).2.2 b rs
        (zssCompactMove m b.next.base b.next.sectors tail need kept).1 ∧
      (zssCompactMove m b.next.base b.next.sectors tail need kept).1 ≠ -3 := by
  obtain ⟨hbank, hsec, -⟩ := h.selects.bank
  obtain ⟨hsec', -, -⟩ := Bank.next_apart hbank
  have htail := h.tail_le
  have hbase : m.zssSectors = b.sectors ∧ m.zssGeneration = b.generation := by
    rw [← hsel]
    exact ⟨rfl, rfl⟩
  obtain ⟨evs₁, hran₁, hwithin₁, herr₁, hcopied₁⟩ := @zssCompactCopy_spec m b rs tail h 1 [] rs rfl
    h.log b.sectors 1 m (by omega) rfl hsel (fun a _ => rfl) (le_refl _) (by omega)
  rw [zssCompactMove, hbase.1]
  cases hc : zssCompactCopy b.next.base tail b.sectors 1 1 m with
  | mk copied m₁ =>
    rw [hc] at hran₁ herr₁ hcopied₁
    cases copied with
    | error code =>
      simp only
      rw [herr₁ _ rfl]
      exact ⟨Moves.failed _ hran₁.did hwithin₁ (by norm_num), by norm_num⟩
    | ok next =>
      have hcopy := hcopied₁ next rfl
      have hnext : next = need := by rw [hcopy.next_eq, hneed]
      simp only
      rw [if_neg (by simp [hnext])]
      obtain ⟨evs₂, hdid₂, hcode₂, hcase₂⟩ := zssCompactCommit_spec m₁ b.next.base
        b.next.sectors tail next kept
      have hdid := hran₁.did.trans hdid₂
      have hwithin : ∀ {evs : List (Event Sector)},
          (∀ e ∈ evs, e.Within (stretch b.next.base next b.next.sectors)) →
          ∀ e ∈ evs₁ ++ evs, e.Within (stretch b.next.base 1 65536) := by
        intro evs hevs e he
        rcases List.mem_append.1 he with he | he
        · exact hwithin₁ e he
        · exact (hevs e he).mono (stretch_mono (by omega) (by omega))
      refine ⟨?_, hcode₂⟩
      rcases hcase₂ with ⟨hwithin₂, hzero⟩ | ⟨body, flushed, rfl, hbody, hend, hflushed⟩
      · exact Moves.failed _ hdid (hwithin hwithin₂) hzero
      · rw [append_publication, hran₁.generation, hbase.2] at hdid
        refine Moves.switched (evs₁ ++ body) flushed next hdid (hwithin hbody) ?_ (by omega) ?_
          hflushed
        · refine hcopy.frame fun i _ hi => ?_
          rw [replay_append, ← hran₁.disk]
          exact replay_off hbody _ (not_mem_stretch (Or.inl hi))
        · intro hlt
          rw [replay_append, ← hran₁.disk]
          exact hend hlt

/-- The result of the checking walk of a compaction of `m`. -/
def zssCompactChecked (m : Machine) : Except ℤ (ℕ × ℕ) :=
  (zssCompactCheck (zssOtherBank (zssFind m none).2.zssBase).2 (zssFind m none).1.tail
    (zssFind m none).2.zssSectors 1 1 0 (virtioBlkFlushAbs (zssFind m none).2).2).1

/-- What a compaction may do: flush and give up; or flush, pass its checks and move. -/
inductive Compacts (m m' : Machine) (b : Bank) (rs : List LogRecord) (code : ℤ) : Prop
  | refused (evs : List (Event Sector)) (did : Did m m' evs)
      (quiet : ∀ e ∈ evs, e = Event.flush) (hcode : code ≠ 0)
  | moved (m₁ : Machine) (did : Did m m₁ [Event.flush]) (moves : Moves m₁ m' b rs code)
      (capacity : b.next.base + b.next.sectors ≤ m.vb.fullCapacity)
      (generation : b.generation + 1 < 2 ^ 32) (flushes : m.vb.flushSupported = true)
      (hcode : code ≠ -3) (checked : ∀ c, zssCompactChecked m ≠ .error c)

theorem Selects.generation_lt (h : Selects m b) :
    b.generation < 2 ^ 32 := by
  have hgen := h.generation
  unfold superGeneration at hgen
  split at hgen
  · cases hgen
  · split at hgen
    · rw [← Option.some.inj hgen]
      norm_num
    · split at hgen
      · split at hgen
        · rw [← Option.some.inj hgen]
          exact zssU32_lt _ _
        · cases hgen
      · cases hgen

theorem zssCompact_compacts (h : Holds m b rs tail) :
    Compacts m (zssCompact m).2.2 b rs (zssCompact m).1 := by
  obtain ⟨hbank, hsec, -⟩ := h.selects.bank
  obtain ⟨hsec', -, -⟩ := Bank.next_apart hbank
  have hgen := h.selects.generation_lt
  have hfind : zssFind m none = _ := zssFind_eq h (by simp)
  have hchecked : zssCompactChecked m = (zssCompactCheck b.next.sectors tail b.sectors 1 1 0
      (virtioBlkFlushAbs (m.select b)).2).1 := by
    unfold zssCompactChecked
    rw [hfind]
    rfl
  generalize hres : zssCompact m = res
  unfold zssCompact at hres
  rw [hfind] at hres
  simp only at hres
  rw [if_neg (by simp [statusOf])] at hres
  split at hres
  · cases hres
    exact Compacts.refused [] ⟨rfl, rfl, by simp [Machine.select], rfl⟩ (by simp) (by norm_num)
  · rename_i hrefuse
    obtain ⟨hcap, hlast, hflush⟩ : b.next.base + b.next.sectors ≤ m.vb.fullCapacity ∧
        b.generation ≠ 2 ^ 32 - 1 ∧ m.vb.flushSupported = true := by
      simp only [not_or, not_lt, not_not] at hrefuse
      exact hrefuse
    have hran₁ := virtioBlkFlushAbs_ran (m.select b)
    cases hf : virtioBlkFlushAbs (m.select b) with
    | mk ok m₁ =>
      rw [hf] at hran₁ hres hchecked
      cases ok with
      | false =>
        cases hres
        exact Compacts.refused [] ⟨hran₁.vb, hran₁.outcome, hran₁.trace, hran₁.disk⟩ (by simp) (by norm_num)
      | true =>
        simp only at hres
        rw [if_pos rfl] at hran₁
        have hdid₁ : Did m m₁ [Event.flush] := ⟨hran₁.vb, hran₁.outcome, hran₁.trace, hran₁.disk⟩
        have h₁ : Holds m₁ b rs tail := (h.other_bank hran₁.vb fun a _ => by rw [hran₁.disk]; rfl).1
        have hsel₁ : m₁.select b = m₁ := hran₁.select rfl
        have hsec₁ : m₁.zssSectors = b.sectors := hran₁.sectors
        have htail := h.tail_le
        obtain ⟨checked, hcheck, herr, hok⟩ := @zssCompactCheck_spec m₁ b rs tail h₁ hsel₁
          b.next.sectors 1 [] rs rfl h₁.log b.sectors 1 0 (by omega)
        have hcheck' : zssCompactCheck (zssOtherBank (m.select b).zssBase).2 tail m₁.zssSectors
            1 1 0 m₁ = (checked, m₁) := by
          rw [hsec₁]
          exact hcheck
        rw [hcheck'] at hres
        rw [hcheck] at hchecked
        cases checked with
        | error code =>
          cases hres
          exact Compacts.refused _ hdid₁ (by simp) (herr _ rfl)
        | ok counts =>
          obtain ⟨need, kept⟩ := counts
          obtain ⟨hneed, hfits⟩ := hok need kept rfl
          obtain ⟨hmoves, hcode⟩ := zssCompactMove_moves h₁ hsel₁ kept hneed (hfits (by omega))
          have hmove : zssCompactMove m₁ b.next.base b.next.sectors tail need kept = res := hres
          rw [hmove] at hmoves hcode
          refine Compacts.moved m₁ hdid₁ hmoves hcap (by omega) hflush hcode fun c hc => ?_
          rw [hchecked] at hc
          cases hc

/-! ## The theorem -/

/-- With the copies in place, the superblock of the next generation switches to a log of
the same meaning. -/
theorem Holds.switched {next : ℕ} {d : Disk Sector} (h : Holds m b rs tail) (hvb : m'.vb = m.vb)
    (hcap : b.next.base + b.next.sectors ≤ m.vb.fullCapacity) (hgen : b.generation + 1 < 2 ^ 32)
    (hoff : ∀ a ∉ stretch b.next.base 1 65536, d a = m.disk a)
    (hdisk : m'.disk = Function.update d (b.next.base + 0) (superblock2 b.next.sectors (b.generation + 1)))
    (hcopied : CopiedAt (fun i => m.disk (b.base + i)) (fun i => d (b.next.base + i)) 1 (keepLatest LogRecord.name rs) next)
    (hroom : next ≤ b.next.sectors)
    (hend : next < b.next.sectors → d (b.next.base + next) = zeroSector) :
    Holds m' b.next (relocate 1 (keepLatest LogRecord.name rs)) next ∧
      ∀ name, zssLookup m' name = zssLookup m name := by
  obtain ⟨hbank, hsec, -⟩ := h.selects.bank
  obtain ⟨hsec', hne, hapart⟩ := Bank.next_apart hbank
  have hnext := hcopied.next_eq
  rw [Nat.add_zero] at hdisk
  have hdst : ∀ i, 1 ≤ i → m'.disk (b.next.base + i) = d (b.next.base + i) := by
    intro i hi
    rw [hdisk, Function.update_of_ne (by omega)]
  have hsrc : m'.disk b.base = m.disk b.base := by
    rw [hdisk, Function.update_of_ne (Ne.symm hne)]
    exact hoff _ fun hmem => hapart 0 (by omega) (stretch_mono (by omega) (le_refl _) hmem)
  have hsuper : superGeneration b.next.sectors (m'.disk b.next.base) = some (b.generation + 1) := by
    rw [hdisk, Function.update_self]
    exact superGeneration_superblock2 (by omega) hgen (Nat.succ_pos _)
  have hcopied' : CopiedAt (fun i => m.disk (b.base + i)) (fun i => m'.disk (b.next.base + i)) 1
      (keepLatest LogRecord.name rs) next := hcopied.frame fun i h1 _ => hdst i h1
  have hdec : ∀ r ∈ keepLatest LogRecord.name rs, zssDecodeRecord b.next.sectors
      (m.disk (b.base + r.entry.headerSector)) r.entry.headerSector = some r := by
    intro r hr
    rw [hsec', ← hsec]
    exact (h.log.mem (by omega) ((keepLatest_sublist LogRecord.name rs).subset hr)).2.2
  have h' : Holds m' b.next (relocate 1 (keepLatest LogRecord.name rs)) next := by
    refine ⟨h.selects.switch hvb hcap hsrc hsuper, hcopied'.logAt (by omega) hdec hroom ?_⟩
    intro hlt
    show m'.disk (b.next.base + next) = zeroSector
    rw [hdst _ (by omega)]
    exact hend hlt
  refine ⟨h', fun name => ?_⟩
  cases hok : zssNameOk name with
  | none => rw [zssLookup_invalid hok, zssLookup_invalid hok]
  | some n =>
    have hsome : (zssNameOk name).isSome := by rw [hok]; rfl
    rw [zssLookup_eq h hsome, zssLookup_eq h' hsome, hcopied'.lookup name, lastWrite_keepLatest]

/-- A cut during a compaction leaves the old log, or the new one. -/
theorem Compacts.crash {m m' m'' : Machine} {b : Bank} {rs : List LogRecord} {tail : ℕ} {code : ℤ}
    {evs : List (Event Sector)} (h : Holds m b rs tail) (hc : Compacts m m' b rs code)
    (htrace : m'.trace = m.trace ++ evs) (hvb : m''.vb = m.vb)
    (hcrash : CrashImage m.vb.flushSupported m.disk evs m''.disk) (name : List UInt8) :
    zssLookup m'' name = zssLookup m name := by
  cases hc with
  | refused evs' did quiet _ =>
    obtain rfl : evs' = evs := List.append_cancel_left (did.trace.symm.trans htrace)
    refine (h.other_bank hvb fun a _ => ?_).2 name
    exact hcrash.off (S := ∅) (fun e he => by rw [quiet e he]; trivial) (Set.notMem_empty a)
  | moved m₁ did₁ moves capacity generation flushes _ _ =>
    have h₁ : Holds m₁ b rs tail := (h.other_bank did₁.vb fun a _ => by rw [did₁.disk]; rfl).1
    have hdisk₁ : m₁.disk = m.disk := did₁.disk
    cases moves with
    | failed evs' did within _ =>
      obtain rfl := List.append_cancel_left ((did₁.trans did).trace.symm.trans htrace)
      refine (h.other_bank hvb fun a ha => hcrash.off (fun e he => ?_) ha).2 name
      rcases List.mem_append.1 he with he | he
      · rw [List.mem_singleton.1 he]
        trivial
      · exact within e he
    | switched body flushed next did within copied room ended _ =>
      obtain rfl := List.append_cancel_left ((did₁.trans did).trace.symm.trans htrace)
      have hbody : ∀ e ∈ [Event.flush] ++ body, e.Within (stretch b.next.base 1 65536) := by
        intro e he
        rcases List.mem_append.1 he with he | he
        · rw [List.mem_singleton.1 he]
          trivial
        · exact within e he
      rw [append_publication, flushes] at hcrash
      rw [hdisk₁] at copied ended
      rcases crash_publish hbody hcrash with hoff | hall
      · exact (h.other_bank hvb hoff).2 name
      · exact (h.switched hvb capacity generation (fun a ha => replay_off within _ ha) hall copied
          room ended).2 name

/-- A compaction that returned 0 has switched to a log with one record for each name, no
longer than the old one; once flushed, for good. -/
theorem Compacts.done {m m' m'' : Machine} {b : Bank} {rs : List LogRecord} {tail : ℕ}
    {evs : List (Event Sector)} (h : Holds m b rs tail) (hc : Compacts m m' b rs 0)
    (htrace : m'.trace = m.trace ++ evs) (hvb : m''.vb = m.vb) :
    ∃ rs' tail', Holds m' b.next rs' tail' ∧
      (Persisted m.vb.flushSupported m.disk evs m''.disk → Holds m'' b.next rs' tail') ∧
      tail' ≤ tail ∧ ∀ n, (rs'.map LogRecord.name).count n =
        if n ∈ rs.map LogRecord.name then 1 else 0 := by
  cases hc with
  | refused _ _ _ hcode => exact absurd rfl hcode
  | moved m₁ did₁ moves capacity generation flushes _ _ =>
    have hdisk₁ : m₁.disk = m.disk := did₁.disk
    cases moves with
    | failed _ _ _ hcode => exact absurd rfl hcode
    | switched body flushed next did within copied room ended hflushed =>
      obtain rfl := List.append_cancel_left ((did₁.trans did).trace.symm.trans htrace)
      rw [hdisk₁] at copied ended
      have hswitch : ∀ {m₂ : Machine}, m₂.vb = m.vb →
          m₂.disk = Function.update (replay body m.disk) (b.next.base + 0)
            (superblock2 b.next.sectors (b.generation + 1)) →
          Holds m₂ b.next (relocate 1 (keepLatest LogRecord.name rs)) next :=
        fun hvb₂ hd₂ => (h.switched hvb₂ capacity generation (fun a ha => replay_off within _ ha)
          hd₂ copied room ended).1
      refine ⟨_, next, hswitch (did.vb.trans did₁.vb) ?_, fun hp => ?_, ?_, fun n => ?_⟩
      · rw [did.disk, replay_publication, hdisk₁]
      · rw [append_publication, flushes, hflushed rfl] at hp
        refine hswitch hvb ?_
        rw [publish_certain hp]
        rfl
      · rw [copied.next_eq, h.log.tail_eq]
        exact Nat.add_le_add_left (span_sublist (keepLatest_sublist LogRecord.name rs)) 1
      · rw [map_name_relocate, (keepLatest_nodup LogRecord.name rs).count]
        simp only [mem_map_keepLatest]

end ZealBringup.Store
