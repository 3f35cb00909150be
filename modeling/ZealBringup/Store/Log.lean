import ZealBringup.Lib.LastWrite
import ZealBringup.Store.Guest

/-!
# What is on the disk: banks and logs

The guest's loops are about sectors; the properties of the store are about
records.  This file relates the two once and for all.

* `LogAt` — a bank holds a log: a chain of headers the decoder accepts, ended by
  a sector of zeros or by the end of the bank.  It only depends on the sectors
  below its tail (`LogAt.frame`), it is unique (`LogAt.unique`), and publishing
  a header at its tail extends it by one record (`LogAt.append`).
* `Selects` — which bank `zss_available` picks; it only looks at the two
  superblocks (`Selects.congr`).
* `zssFind_eq`, `zssLookup_eq` — `zss_find` and `zss_read` on a bank that holds a
  log answer with the newest record of the name, and `exists_logAt` says that a
  bank on which the scan succeeds holds one.
-/

set_option maxRecDepth 10000

namespace ZealBringup.Store

open CrashDisk LastWrite

/-! ## Logs -/

/-- From sector `pos` on, the bank with contents `rd` holds the records `rs`, and the
log ends at `tail`. -/
inductive LogAt (sectors : ℕ) (rd : ℕ → Sector) : ℕ → List LogRecord → ℕ → Prop
  | full {pos : ℕ} (h : sectors ≤ pos) : LogAt sectors rd pos [] pos
  | empty {pos : ℕ} (h : pos < sectors) (hz : rd pos = zeroSector) : LogAt sectors rd pos [] pos
  | record {pos tail : ℕ} {r : LogRecord} {rs : List LogRecord} (h : pos < sectors)
      (hr : zssDecodeRecord sectors (rd pos) pos = some r)
      (hrest : LogAt sectors rd (pos + 1 + r.entry.blocks) rs tail) :
      LogAt sectors rd pos (r :: rs) tail

namespace LogAt

variable {sectors pos tail : ℕ} {rd rd' : ℕ → Sector} {rs : List LogRecord}

theorem le_tail (h : LogAt sectors rd pos rs tail) : pos ≤ tail := by
  induction h with
  | full => exact le_refl _
  | empty => exact le_refl _
  | record _ _ _ ih => omega

theorem tail_le (h : LogAt sectors rd pos rs tail) (hsec : sectors < 2 ^ 31)
    (hpos : pos ≤ sectors) : tail ≤ sectors := by
  induction h with
  | full => exact hpos
  | empty => exact hpos
  | @record pos _ r _ hlt hr _ ih =>
    exact ih (zssDecodeRecord_some hr (by omega)).2.1

/-- The tail sector is the terminator, unless the bank is full. -/
theorem tail_zero (h : LogAt sectors rd pos rs tail) (ht : tail < sectors) :
    rd tail = zeroSector := by
  induction h with
  | full hle => omega
  | empty _ hz => exact hz
  | record _ _ _ ih => exact ih ht

/-- A log only depends on the sectors below its tail, and on the terminator. -/
theorem frame (h : LogAt sectors rd pos rs tail)
    (hagree : ∀ i, pos ≤ i → i < tail → rd' i = rd i)
    (hz : tail < sectors → rd' tail = zeroSector) : LogAt sectors rd' pos rs tail := by
  induction h with
  | full hle => exact full hle
  | empty hlt _ => exact empty hlt (hz hlt)
  | record hlt hr hrest ih =>
    have := hrest.le_tail
    refine record hlt ?_ (ih (fun i h1 h2 => hagree i (by omega) h2) hz)
    rw [hagree _ (le_refl _) (by omega)]
    exact hr

/-- Publishing a header at the tail extends the log by its record. -/
theorem append {r : LogRecord} (h : LogAt sectors rd pos rs tail) (ht : tail < sectors)
    (hagree : ∀ i, pos ≤ i → i < tail → rd' i = rd i)
    (hr : zssDecodeRecord sectors (rd' tail) tail = some r)
    (hend : sectors ≤ tail + 1 + r.entry.blocks ∨ rd' (tail + 1 + r.entry.blocks) = zeroSector) :
    LogAt sectors rd' pos (rs ++ [r]) (tail + 1 + r.entry.blocks) := by
  have hlast : LogAt sectors rd' tail [r] (tail + 1 + r.entry.blocks) := by
    refine record ht hr ?_
    by_cases hle : sectors ≤ tail + 1 + r.entry.blocks
    · exact full hle
    · exact empty (by omega) (hend.resolve_left hle)
  induction h with
  | full hle => omega
  | empty => exact hlast
  | record hlt hr' hrest ih =>
    have := hrest.le_tail
    refine record hlt ?_ (ih ht (fun i h1 h2 => hagree i (by omega) h2) hr hend hlast)
    rw [hagree _ (le_refl _) (by omega)]
    exact hr'

/-- A bank holds at most one log. -/
theorem unique {tail' : ℕ} {rs' : List LogRecord} (h : LogAt sectors rd pos rs tail)
    (h' : LogAt sectors rd pos rs' tail') : rs = rs' ∧ tail = tail' := by
  induction h generalizing rs' tail' with
  | full hle =>
    cases h' with
    | full => exact ⟨rfl, rfl⟩
    | empty hlt => omega
    | record hlt => omega
  | empty hlt hz =>
    cases h' with
    | full => omega
    | empty => exact ⟨rfl, rfl⟩
    | record _ hr =>
      rw [hz, zssDecodeRecord_zero] at hr
      cases hr
  | record hlt hr hrest ih =>
    cases h' with
    | full => omega
    | empty _ hz =>
      rw [hz, zssDecodeRecord_zero] at hr
      cases hr
    | record _ hr' hrest' =>
      rw [hr] at hr'
      cases hr'
      obtain ⟨rfl, rfl⟩ := ih hrest'
      exact ⟨rfl, rfl⟩

/-- Where a record of the log lies. -/
theorem mem (h : LogAt sectors rd pos rs tail) (hsec : sectors < 2 ^ 31) {r : LogRecord}
    (hr : r ∈ rs) :
    pos ≤ r.entry.headerSector ∧ r.entry.headerSector + 1 + r.entry.blocks ≤ tail ∧
      zssDecodeRecord sectors (rd r.entry.headerSector) r.entry.headerSector = some r := by
  induction h with
  | full => simp at hr
  | empty => simp at hr
  | @record pos _ r' _ hlt hdec hrest ih =>
    obtain ⟨hh, -⟩ := zssDecodeRecord_some hdec (by omega)
    rcases List.mem_cons.1 hr with rfl | hr
    · rw [hh]
      exact ⟨le_refl _, hrest.le_tail, hdec⟩
    · obtain ⟨h1, h2, h3⟩ := ih hr
      exact ⟨by omega, h2, h3⟩

end LogAt

/-! ## The scan on a log -/

/-- The machine can read its bank. -/
def Readable (m : Machine) : Prop :=
  m.vb.absoluteReady = true ∧ m.zssBase + m.zssSectors ≤ m.vb.fullCapacity

/-- The contents of the bank the machine has selected. -/
def Machine.bank (m : Machine) : ℕ → Sector := fun i => m.disk (m.zssBase + i)

variable {m : Machine}

theorem zssSectorRead_eq (hm : Readable m) {i : ℕ} (hi : i < m.zssSectors) :
    zssSectorRead m i = some (m.bank i) := by
  obtain ⟨h1, h2⟩ := hm
  rw [zssSectorRead, if_pos hi, zssBankRead, virtioBlkReadAbs, if_pos ⟨h1, by omega⟩]
  rfl

/-- The status `zss_find` reports for the newest record of a name. -/
def statusOf (found : ℤ) : Option LogRecord → ℤ
  | none => found
  | some r => if r.deleted then -3 else 1

/-- **The scan reads the log.**  On a bank that holds a log the loop of `zss_find`
reports the newest record of the name, the tail and the number of records. -/
theorem zssFindLoop_eq (hm : Readable m) {rs : List LogRecord} {pos tail : ℕ}
    (h : LogAt m.zssSectors m.bank pos rs tail) (name : Option (List UInt8)) (fuel records : ℕ)
    (found : ℤ) (out : Option ZssEntry) (hfuel : m.zssSectors ≤ pos + fuel) :
    zssFindLoop m name fuel pos records found out =
      ⟨statusOf found (name.bind fun n => lastWrite LogRecord.name n rs),
        ((name.bind fun n => lastWrite LogRecord.name n rs).map LogRecord.entry).or out,
        tail, records + rs.length⟩ := by
  induction h generalizing fuel records found out with
  | @full pos hle =>
    have hn : (name.bind fun n => lastWrite LogRecord.name n []) = none := by cases name <;> rfl
    rw [hn]
    cases fuel with
    | zero => rfl
    | succ fuel =>
      rw [zssFindLoop, if_neg (by omega)]
      rfl
  | @empty pos hlt hz =>
    have hn : (name.bind fun n => lastWrite LogRecord.name n []) = none := by cases name <;> rfl
    obtain ⟨k, rfl⟩ : ∃ k, fuel = k + 1 := ⟨fuel - 1, by omega⟩
    rw [hn, zssFindLoop, if_pos hlt, zssSectorRead_eq hm hlt]
    simp only
    rw [if_pos (isEmptySector_iff.2 hz)]
    rfl
  | @record pos tail r rs hlt hr hrest ih =>
    obtain ⟨k, rfl⟩ : ∃ k, fuel = k + 1 := ⟨fuel - 1, by omega⟩
    have hne : isEmptySector (m.bank pos) = false := by
      rw [← Bool.not_eq_true, isEmptySector_iff]
      intro hz
      rw [hz, zssDecodeRecord_zero] at hr
      cases hr
    rw [zssFindLoop, if_pos hlt, zssSectorRead_eq hm hlt]
    simp only [hne, Bool.false_eq_true, if_false, hr]
    have hlen : records + (r :: rs).length = records + 1 + rs.length := by
      rw [List.length_cons]; omega
    rw [hlen]
    by_cases hname : name = some r.name
    · subst hname
      rw [if_pos rfl, ih _ _ _ _ (by omega)]
      simp only [Option.bind_some, lastWrite_cons, if_true]
      cases lastWrite LogRecord.name r.name rs <;> rfl
    · rw [if_neg hname, ih _ _ _ _ (by omega)]
      cases name with
      | none => rfl
      | some n =>
        have hn : r.name ≠ n := fun he => hname (by rw [he])
        simp only [Option.bind_some, lastWrite_cons, if_neg hn, Option.or_none]

/-- A bank on which the loop does not fail holds a log. -/
theorem exists_logAt (hm : Readable m) (name : Option (List UInt8)) (fuel pos records : ℕ)
    (found : ℤ) (out : Option ZssEntry) (hfuel : m.zssSectors ≤ pos + fuel)
    (h : (zssFindLoop m name fuel pos records found out).status ≠ -1) :
    ∃ rs tail, LogAt m.zssSectors m.bank pos rs tail := by
  induction fuel generalizing pos records found out with
  | zero => exact ⟨[], pos, LogAt.full (by omega)⟩
  | succ fuel ih =>
    rw [zssFindLoop] at h
    by_cases hlt : pos < m.zssSectors
    · rw [if_pos hlt, zssSectorRead_eq hm hlt] at h
      simp only at h
      by_cases hz : isEmptySector (m.bank pos) = true
      · exact ⟨[], pos, LogAt.empty hlt (isEmptySector_iff.1 hz)⟩
      · rw [if_neg hz] at h
        cases hr : zssDecodeRecord m.zssSectors (m.bank pos) pos with
        | none => simp [hr] at h
        | some r =>
          simp only [hr] at h
          have hrest : ∃ rs tail, LogAt m.zssSectors m.bank (pos + 1 + r.entry.blocks) rs tail := by
            split at h
            · exact ih _ _ _ _ (by omega) h
            · exact ih _ _ _ _ (by omega) h
          obtain ⟨rs, tail, hlog⟩ := hrest
          exact ⟨r :: rs, tail, LogAt.record hlt hr hlog⟩
    · exact ⟨[], pos, LogAt.full (by omega)⟩

/-! ## Superblocks -/

/-- The v1 superblock `seed` formats a bank with. -/
def superblock1 (sectors : ℕ) : Sector :=
  zssW32 (zssW32 (copyBytes zeroSector 0 superMagic1) 8 1) 12 sectors

variable {sectors : ℕ}

theorem superGeneration_superblock1 (h : sectors < 2 ^ 32) :
    superGeneration sectors (superblock1 sectors) = some 0 := by
  have h12 : zssU32 (superblock1 sectors) 12 = sectors := zssU32_zssW32 _ (by omega) h
  have h8 : zssU32 (superblock1 sectors) 8 = 1 := by
    rw [superblock1, zssU32_zssW32_ne _ (by omega) (by omega), zssU32_zssW32 _ (by omega) (by omega)]
  have hmagic : zssEq (superblock1 sectors) superMagic1 = true := by
    rw [superblock1, zssEq_zssW32 _ (by decide) (by omega), zssEq_zssW32 _ (by decide) (by omega)]
    exact zssEq_copyBytes _ (by decide)
  rw [superGeneration, if_neg (by simpa using h12), if_pos ⟨hmagic, h8⟩]

theorem superGeneration_superblock2 {generation : ℕ} (hs : sectors < 2 ^ 32)
    (hg : generation < 2 ^ 32) (hpos : 0 < generation) :
    superGeneration sectors (superblock2 sectors generation) = some generation := by
  have hcrc : ((superblock2 sectors generation).slice 0 20) =
      ((zssW32 (zssW32 (zssW32 (copyBytes zeroSector 0 superMagic2) 8 2) 12 sectors)
        16 generation).slice 0 20) :=
    slice_congr fun i hi => get_zssW32_ne _ (by omega) (Or.inl (by omega))
  have h20 : zssU32 (superblock2 sectors generation) 20 =
      (zssCrc ((superblock2 sectors generation).slice 0 20)).toNat := by
    rw [hcrc]
    exact zssU32_zssW32 _ (by omega) (UInt32.toNat_lt _)
  have h16 : zssU32 (superblock2 sectors generation) 16 = generation := by
    rw [superblock2, zssU32_zssW32_ne _ (by omega) (by omega), zssU32_zssW32 _ (by omega) hg]
  have h12 : zssU32 (superblock2 sectors generation) 12 = sectors := by
    rw [superblock2, zssU32_zssW32_ne _ (by omega) (by omega),
      zssU32_zssW32_ne _ (by omega) (by omega), zssU32_zssW32 _ (by omega) hs]
  have h8 : zssU32 (superblock2 sectors generation) 8 = 2 := by
    rw [superblock2, zssU32_zssW32_ne _ (by omega) (by omega),
      zssU32_zssW32_ne _ (by omega) (by omega), zssU32_zssW32_ne _ (by omega) (by omega),
      zssU32_zssW32 _ (by omega) (by omega)]
  have hmagic : zssEq (superblock2 sectors generation) superMagic2 = true := by
    rw [superblock2, zssEq_zssW32 _ (by decide) (by omega), zssEq_zssW32 _ (by decide) (by omega),
      zssEq_zssW32 _ (by decide) (by omega), zssEq_zssW32 _ (by decide) (by omega)]
    exact zssEq_copyBytes _ (by decide)
  rw [superGeneration, if_neg (by simpa using h12), if_neg (by rw [h8]; omega),
    if_pos ⟨hmagic, h8, h20⟩, h16, if_pos (by omega)]

theorem superGeneration_zero (h : 0 < sectors) :
    superGeneration sectors zeroSector = none := by
  rw [superGeneration, zssU32_zero, if_pos (by omega)]

/-! ## Which bank is selected -/

/-- A bank and the generation of its superblock. -/
structure Bank where
  base : ℕ
  sectors : ℕ
  generation : ℕ

/-- The primary bank at generation `g`. -/
def bankA (g : ℕ) : Bank := ⟨zealSrcLbaBase, zealSrcSects, g⟩

/-- The shadow bank at generation `g`. -/
def bankB (g : ℕ) : Bank := ⟨zealSrcShadowLba, zealSrcShadowSects, g⟩

/-- The globals once `b` is selected. -/
def Machine.select (m : Machine) (b : Bank) : Machine :=
  { m with zssBase := b.base, zssSectors := b.sectors, zssGeneration := b.generation }

/-- `zss_available` succeeds and picks `b`. -/
def Selects (m : Machine) (b : Bank) : Prop := zssAvailable m = (true, m.select b)

/-- The choice of `zss_available` between the two probes. -/
def bestBank : Option ℕ → Option ℕ → Option Bank
  | none, none => none
  | none, some bGen => some (bankB bGen)
  | some aGen, none => some (bankA aGen)
  | some aGen, some bGen => if bGen > aGen then some (bankB bGen) else some (bankA aGen)

variable {b : Bank}

theorem selects_iff :
    Selects m b ↔ m.vb.absoluteReady = true ∧
      bestBank (zssProbeBank m zealSrcLbaBase zealSrcSects)
        (zssProbeBank m zealSrcShadowLba zealSrcShadowSects) = some b := by
  unfold Selects zssAvailable
  by_cases hready : m.vb.absoluteReady = true
  · simp only [hready, not_true_eq_false, if_false, true_and]
    have key : ∀ b' : Bank, m.select b' = m.select b ↔ b' = b := by
      intro b'
      refine ⟨fun h => ?_, fun h => by rw [h]⟩
      obtain ⟨_, _, _⟩ := b
      obtain ⟨_, _, _⟩ := b'
      simp only [Machine.select, Machine.mk.injEq] at h
      simp_all
    have pick : ∀ b' : Bank, (true, m.select b') = (true, m.select b) ↔ some b' = some b := by
      intro b'
      rw [Prod.mk.injEq, Option.some.injEq, key b']
      simp
    cases zssProbeBank m zealSrcLbaBase zealSrcSects with
    | none =>
      cases zssProbeBank m zealSrcShadowLba zealSrcShadowSects with
      | none => simp [bestBank]
      | some bGen => exact pick (bankB bGen)
    | some aGen =>
      cases zssProbeBank m zealSrcShadowLba zealSrcShadowSects with
      | none => exact pick (bankA aGen)
      | some bGen =>
        by_cases hgt : bGen > aGen
        · simp only [bestBank, if_pos hgt]
          exact pick (bankB bGen)
        · simp only [bestBank, if_neg hgt]
          exact pick (bankA aGen)
  · simp [hready]

variable {m' : Machine}

/-- Whatever `zss_available` picks, it picks a bank and changes nothing else. -/
theorem exists_selects (h : zssAvailable m = (true, m')) :
    ∃ b, Selects m b ∧ m' = m.select b := by
  have hm : m' = m.select ⟨m'.zssBase, m'.zssSectors, m'.zssGeneration⟩ := by
    unfold zssAvailable at h
    split at h
    · cases h
    · simp only at h
      split at h
      · cases h
      · cases h; rfl
      · split at h
        · cases h; rfl
        · cases h; rfl
      · cases h; rfl
  refine ⟨_, ?_, hm⟩
  rw [Selects, h]
  exact congrArg (Prod.mk true) hm

/-- If it picks none, it changes nothing at all. -/
theorem zssAvailable_false (h : zssAvailable m = (false, m')) : m' = m := by
  unfold zssAvailable at h
  split at h
  · cases h
    rfl
  · simp only at h
    split at h
    · cases h
      rfl
    · cases h
    · split at h
      · cases h
      · cases h
    · cases h

/-- A probe only looks at the superblock of its bank. -/
theorem zssProbeBank_eq (hready : m.vb.absoluteReady = true) (base : ℕ) (hs : 0 < sectors) :
    zssProbeBank m base sectors =
      if m.vb.fullCapacity < base + sectors then none
      else superGeneration sectors (m.disk base) := by
  unfold zssProbeBank zssBankRead virtioBlkReadAbs
  by_cases hcap : m.vb.fullCapacity < base + sectors
  · rw [if_pos hcap, if_pos hcap]
  · rw [if_neg hcap, if_neg hcap, if_pos ⟨hready, by omega⟩]
    rfl

/-- With a superblock on the primary bank alone, that bank is selected. -/
theorem selects_bankA {g : ℕ} (hready : m.vb.absoluteReady = true)
    (hcap : zealSrcLbaBase + zealSrcSects ≤ m.vb.fullCapacity)
    (hA : superGeneration zealSrcSects (m.disk zealSrcLbaBase) = some g)
    (hB : superGeneration zealSrcShadowSects (m.disk zealSrcShadowLba) = none) :
    Selects m (bankA g) := by
  refine selects_iff.2 ⟨hready, ?_⟩
  rw [zssProbeBank_eq hready _ (by decide), zssProbeBank_eq hready _ (by decide),
    if_neg (not_lt.2 hcap), hA, hB, ite_self]
  rfl

/-- The selection only depends on the two superblocks. -/
theorem Selects.congr (h : Selects m b) (hvb : m'.vb = m.vb)
    (hA : m'.disk zealSrcLbaBase = m.disk zealSrcLbaBase)
    (hB : m'.disk zealSrcShadowLba = m.disk zealSrcShadowLba) : Selects m' b := by
  obtain ⟨hready, hbest⟩ := selects_iff.1 h
  have hready' : m'.vb.absoluteReady = true := by rw [hvb]; exact hready
  refine selects_iff.2 ⟨hready', ?_⟩
  rw [zssProbeBank_eq hready _ (by decide), zssProbeBank_eq hready _ (by decide)] at hbest
  rw [zssProbeBank_eq hready' _ (by decide), zssProbeBank_eq hready' _ (by decide), hvb, hA, hB]
  exact hbest

theorem Selects.unique {b' : Bank} (h : Selects m b) (h' : Selects m b') :
    b = b' := by
  have := (selects_iff.1 h).2.symm.trans (selects_iff.1 h').2
  exact Option.some.inj this

/-- The selected bank is one of the two, and the device holds all of it. -/
theorem Selects.bank (h : Selects m b) :
    (b = bankA b.generation ∨ b = bankB b.generation) ∧ b.sectors = 65536 ∧
      m.vb.absoluteReady = true ∧ b.base + b.sectors ≤ m.vb.fullCapacity := by
  obtain ⟨hready, hbest⟩ := selects_iff.1 h
  rw [zssProbeBank_eq hready _ (by decide), zssProbeBank_eq hready _ (by decide)] at hbest
  have hA : ∀ g, (if m.vb.fullCapacity < zealSrcLbaBase + zealSrcSects then none
      else superGeneration zealSrcSects (m.disk zealSrcLbaBase)) = some g →
      zealSrcLbaBase + zealSrcSects ≤ m.vb.fullCapacity := by
    intro g hg
    by_contra hlt
    rw [if_pos (by omega)] at hg
    cases hg
  have hB : ∀ g, (if m.vb.fullCapacity < zealSrcShadowLba + zealSrcShadowSects then none
      else superGeneration zealSrcShadowSects (m.disk zealSrcShadowLba)) = some g →
      zealSrcShadowLba + zealSrcShadowSects ≤ m.vb.fullCapacity := by
    intro g hg
    by_contra hlt
    rw [if_pos (by omega)] at hg
    cases hg
  -- each case of the choice names its bank
  revert hbest hA hB
  generalize (if m.vb.fullCapacity < zealSrcLbaBase + zealSrcSects then none
      else superGeneration zealSrcSects (m.disk zealSrcLbaBase)) = a
  generalize (if m.vb.fullCapacity < zealSrcShadowLba + zealSrcShadowSects then none
      else superGeneration zealSrcShadowSects (m.disk zealSrcShadowLba)) = b'
  intro hbest hA hB
  cases a with
  | none =>
    cases b' with
    | none => cases hbest
    | some g =>
      cases hbest
      exact ⟨Or.inr rfl, rfl, hready, hB g rfl⟩
  | some g =>
    cases b' with
    | none =>
      cases hbest
      exact ⟨Or.inl rfl, rfl, hready, hA g rfl⟩
    | some g' =>
      simp only [bestBank] at hbest
      split at hbest
      · cases hbest
        exact ⟨Or.inr rfl, rfl, hready, hB g' rfl⟩
      · cases hbest
        exact ⟨Or.inl rfl, rfl, hready, hA g rfl⟩

theorem Selects.readable (h : Selects m b) : Readable (m.select b) :=
  ⟨h.bank.2.2.1, h.bank.2.2.2⟩

/-! ## A machine whose selected bank holds a log -/

/-- The machine selects `b`, and `b` holds the records `rs` up to `tail`. -/
structure Holds (m : Machine) (b : Bank) (rs : List LogRecord) (tail : ℕ) : Prop where
  selects : Selects m b
  log : LogAt b.sectors (fun i => m.disk (b.base + i)) 1 rs tail

namespace Holds

variable {m : Machine} {b : Bank} {rs : List LogRecord} {tail : ℕ}

theorem tail_le (h : Holds m b rs tail) : tail ≤ b.sectors :=
  h.log.tail_le (by rw [h.selects.bank.2.1]; norm_num) (by rw [h.selects.bank.2.1]; norm_num)

theorem unique {b' : Bank} {rs' : List LogRecord} {tail' : ℕ} (h : Holds m b rs tail)
    (h' : Holds m b' rs' tail') : b = b' ∧ rs = rs' ∧ tail = tail' := by
  obtain rfl := h.selects.unique h'.selects
  exact ⟨rfl, h.log.unique h'.log⟩

end Holds

/-- **`zss_find` on a log.** -/
theorem zssFind_eq {rs : List LogRecord} {tail : ℕ} (h : Holds m b rs tail)
    {name : Option (List UInt8)} (hname : ∀ n ∈ name, (zssNameOk n).isSome) :
    zssFind m name =
      (⟨statusOf 0 (name.bind fun n => lastWrite LogRecord.name n rs),
        (name.bind fun n => lastWrite LogRecord.name n rs).map LogRecord.entry,
        tail, rs.length⟩, m.select b) := by
  have hok : (name.any fun n => (zssNameOk n).isNone) = false := by
    cases name with
    | none => rfl
    | some n =>
      have := hname n rfl
      simpa [Option.isSome_iff_ne_none] using this
  have hloop := zssFindLoop_eq h.selects.readable h.log name b.sectors 0 0 none
    (by show b.sectors ≤ _; omega)
  rw [zssFind, hok, if_neg (by simp), show zssAvailable m = _ from h.selects]
  simp only
  rw [show (m.select b).zssSectors = b.sectors from rfl, hloop]
  simp

/-- A scan, for any name, that is neither cut short nor refused finds a log. -/
theorem exists_holds_of_find {name : Option (List UInt8)} (h1 : (zssFind m name).1.status ≠ -1)
    (h2 : (zssFind m name).1.status ≠ -2) :
    ∃ b rs tail, Holds m b rs tail := by
  rw [zssFind] at h1 h2
  by_cases hok : (name.any fun n => (zssNameOk n).isNone) = true
  · rw [if_pos hok] at h1
    exact absurd rfl h1
  · rw [if_neg hok] at h1 h2
    cases hsel : zssAvailable m with
    | mk ok m' =>
      rw [hsel] at h1 h2
      cases ok with
      | false => exact absurd rfl h2
      | true =>
        obtain ⟨b, hb, rfl⟩ := exists_selects hsel
        obtain ⟨rs, tail, hlog⟩ := exists_logAt hb.readable name b.sectors 1 0 0 none
          (by show b.sectors ≤ 1 + b.sectors; omega) h1
        exact ⟨b, rs, tail, hb, hlog⟩

/-- A scan that does not fail finds a log. -/
theorem exists_holds (h : 0 ≤ (zssFind m none).1.status) :
    ∃ b rs tail, Holds m b rs tail :=
  @exists_holds_of_find m none (by omega) (by omega)

end ZealBringup.Store
