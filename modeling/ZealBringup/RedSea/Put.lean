import ZealBringup.RedSea.Slots

/-!
# Putting a file

What `rs_put_file` decides before it writes (`PutPlan.Ok`), the disks it can leave
when a write fails (`PutOutcome`), and what a reader sees of each of them.

* `rsPutPlan_ok` — the plan on a consistent volume.
* `rsPutWrites_outcome` — one outcome for each write that can be the first to fail.
* `PutPlan.Ok.volume` — none of them damages the volume.
-/

set_option maxRecDepth 10000

namespace ZealBringup.RedSea

open Store CrashDisk Extents

/-! ## The plan -/

theorem rsFindRun_some {map : Sector} {n sects i : ℕ} (h : rsFindRun map n sects = some i) :
    3 ≤ i ∧ i + n ≤ sects ∧ ∀ c, i ≤ c → c < i + n → c ∉ marks map := by
  have hi := List.find?_some h
  have hmem := List.mem_of_find?_eq_some h
  rw [List.mem_range'_1] at hmem
  rw [Bool.and_eq_true, decide_eq_true_eq, List.all_eq_true] at hi
  refine ⟨hmem.1, hi.1, fun c h1 h2 hc => ?_⟩
  have hfree := hi.2 (c - i) (List.mem_range.2 (by omega))
  rw [show i + (c - i) = c by omega, Bool.not_eq_true'] at hfree
  have hbit : mapBit map c = true := hc
  rw [hfree] at hbit
  cases hbit

theorem clusters_slotLen {dir : Sector} {i : Fin 8} (h : slotLen dir i ≠ 0)
    (hlen : slotLen dir i + 511 < 2 ^ 64) : clusters (slotLen dir i) = slotClusters dir i := by
  have hpos : 1 ≤ clusters (slotLen dir i) := by
    rw [clusters_eq hlen]
    omega
  exact (max_eq_right hpos).symm

/-- What the plan of `rs_put_file` says about the volume. -/
structure PutPlan.Ok (p : PutPlan) (name : CStr) (src : List UInt8) (d : Disk Sector)
    (root sects : ℕ) : Prop where
  onRoot : p.root = ⟨d root, root, sects⟩
  oldMap : p.oldMap = d 1
  sized : 0 < src.length ∧ src.length ≤ 65536
  short : name.bytes.length ≤ 37
  nclus : p.nclus = (src.length + 511) / 512
  old : p.existing = true → rsFindSlot (d root) name.bytes = some p.slot ∧
    slotLen (d root) p.slot ≠ 0 ∧ p.oldBlk = slotBlk (d root) p.slot ∧
    p.oldNclus = slotClusters (d root) p.slot
  fresh : p.existing = false → rsFindSlot (d root) name.bytes = none ∧
    slotLive (d root) p.slot = false
  run : p.newRun = true → rsFindRun (d 1) p.nclus sects = some p.fblk ∧
    p.map = markRun (d 1) p.fblk p.nclus ∧ (p.existing = true → p.oldNclus < p.nclus)
  inPlace : p.newRun = false → p.existing = true ∧ p.fblk = p.oldBlk ∧ p.map = d 1 ∧
    p.nclus ≤ p.oldNclus

theorem rsPutRun_ok {r : Root} {map : Sector} {slot : Fin 8} {existing : Bool}
    {nclus oldBlk oldNclus : ℕ} {p : PutPlan}
    (h : rsPutRun r map slot existing nclus oldBlk oldNclus = .ok p) :
    p.root = r ∧ p.oldMap = map ∧ p.slot = slot ∧ p.existing = existing ∧ p.nclus = nclus ∧
      p.oldBlk = oldBlk ∧ p.oldNclus = oldNclus ∧
      (p.newRun = true → rsFindRun map nclus r.sects = some p.fblk ∧
        p.map = markRun map p.fblk nclus ∧ (existing = true → oldNclus < nclus)) ∧
      (p.newRun = false → existing = true ∧ p.fblk = oldBlk ∧ p.map = map ∧ nclus ≤ oldNclus) := by
  unfold rsPutRun at h
  split at h
  · rename_i hnew
    cases hfind : rsFindRun map nclus r.sects with
    | none =>
      rw [hfind] at h
      cases h
    | some fblk =>
      rw [hfind] at h
      obtain rfl := Except.ok.inj h
      refine ⟨rfl, rfl, rfl, rfl, rfl, rfl, rfl, fun _ => ⟨rfl, rfl, fun hex => ?_⟩, nofun⟩
      exact hnew.resolve_left (by simp [hex])
  · rename_i hnew
    rw [not_or, not_lt] at hnew
    obtain rfl := Except.ok.inj h
    exact ⟨rfl, rfl, rfl, rfl, rfl, rfl, rfl, nofun,
      fun _ => ⟨by simpa using hnew.1, rfl, rfl, hnew.2⟩⟩

/-- **The plan.** -/
theorem rsPutPlan_ok {dev : Dev} {root sects : ℕ} {name : CStr} {src : List UInt8} {p : PutPlan}
    (hvol : Books dev.capacity dev.disk root sects) (h : rsPutPlan name src dev = .ok p) :
    p.Ok name src dev.disk root sects := by
  have hsize := hvol.size
  have hfits := hvol.fits
  unfold rsPutPlan at h
  split at h
  · cases h
  · rename_i hargs
    simp only [not_or, not_lt] at hargs
    obtain ⟨h0, hname, hmax⟩ := hargs
    rw [hvol.readRoot] at h
    dsimp only at h
    rw [if_neg (by omega), blkread_of_lt (by omega)] at h
    dsimp only at h
    cases hfind : rsFindSlot (dev.disk root) name.bytes with
    | none =>
      rw [hfind] at h
      dsimp only at h
      cases hfree : rsFreeSlot (dev.disk root) with
      | none =>
        rw [hfree] at h
        cases h
      | some slot =>
        rw [hfree] at h
        obtain ⟨h1, h2, h3, h4, h5, h6, h7, hrun, hplace⟩ := rsPutRun_ok h
        refine ⟨h1, h2, ⟨by omega, hmax⟩, hname, h5, ?_, ?_, ?_, ?_⟩
        · intro hex
          rw [h4] at hex
          cases hex
        · intro _
          rw [h3]
          exact ⟨hfind, rsFreeSlot_some hfree⟩
        · intro hnew
          obtain ⟨hr1, hr2, -⟩ := hrun hnew
          rw [h5, h4]
          exact ⟨hr1, hr2, nofun⟩
        · intro hnew
          cases (hplace hnew).1
    | some slot =>
      rw [hfind] at h
      dsimp only at h
      obtain ⟨hlive, -⟩ := rsFindSlot_some hfind
      have hlengths := hvol.lengths slot hlive
      split at h
      · cases h
      · rename_i hsane
        rw [not_or] at hsane
        obtain ⟨h1, h2, h3, h4, h5, h6, h7, hrun, hplace⟩ := rsPutRun_ok h
        have hclus := clusters_slotLen hsane.1 hlengths
        refine ⟨h1, h2, ⟨by omega, hmax⟩, hname, h5, ?_, ?_, ?_, ?_⟩
        · intro _
          rw [h3, h6, h7, ← hclus]
          exact ⟨hfind, hsane.1, rfl, rfl⟩
        · intro hex
          rw [h4] at hex
          cases hex
        · intro hnew
          obtain ⟨hr1, hr2, hr3⟩ := hrun hnew
          rw [h5, h7]
          exact ⟨hr1, hr2, fun _ => hr3 rfl⟩
        · intro hnew
          obtain ⟨-, hp2, hp3, hp4⟩ := hplace hnew
          rw [h4, h5, h6, h7]
          exact ⟨rfl, hp2, hp3, hp4⟩

/-! ## The writes -/

/-- The first `k` writes succeed and the next one fails. -/
def FirstFail (dev : Dev) (k : ℕ) : Prop :=
  (∀ t < k, dev.fails (dev.writes + t) = false) ∧ dev.fails (dev.writes + k) = true

theorem blkwrite_of_lt {dev : Dev} {blk : ℕ} (h : blk < dev.capacity) (s : Sector) :
    dev.blkwrite blk s =
      if dev.fails dev.writes then (false, { dev with writes := dev.writes + 1 })
      else (true, { dev with disk := Function.update dev.disk blk s, writes := dev.writes + 1 }) := by
  rw [Dev.blkwrite, if_neg]
  have hmod := Nat.mod_le (blk + 1) (2 ^ 64)
  omega

/-- The disk with `k` blocks of `src` written, from the `j`th on. -/
def wrote (d : Disk Sector) (fblk : ℕ) (src : List UInt8) (j k : ℕ) : Disk Sector := fun a =>
  if fblk + j ≤ a ∧ a < fblk + j + k then dataBlock src (a - fblk) else d a

theorem wrote_zero (d : Disk Sector) (fblk : ℕ) (src : List UInt8) (j : ℕ) :
    wrote d fblk src j 0 = d := by
  funext a
  rw [wrote, if_neg (by omega)]

theorem wrote_succ (d : Disk Sector) (fblk : ℕ) (src : List UInt8) (j k : ℕ) :
    wrote (Function.update d (fblk + j) (dataBlock src j)) fblk src (j + 1) k =
      wrote d fblk src j (k + 1) := by
  funext a
  unfold wrote
  by_cases ha : a = fblk + j
  · rw [ha, if_neg (by omega), Function.update_self, if_pos (by omega), Nat.add_sub_cancel_left]
  · rw [Function.update_of_ne ha]
    by_cases hmem : fblk + (j + 1) ≤ a ∧ a < fblk + (j + 1) + k
    · rw [if_pos hmem, if_pos (by omega)]
    · rw [if_neg hmem, if_neg (by omega)]

theorem wrote_off {d : Disk Sector} {fblk j k a : ℕ} {src : List UInt8}
    (h : a < fblk + j ∨ fblk + j + k ≤ a) : wrote d fblk src j k a = d a :=
  if_neg (by omega)

/-- The loop stops at the first write that fails. -/
theorem rsWriteBlocks_eq {dev : Dev} {fblk j n : ℕ} (src : List UInt8)
    (hfit : fblk + j + n ≤ dev.capacity) :
    (∀ t < n, dev.fails (dev.writes + t) = false) ∧
        rsWriteBlocks dev fblk src j n =
          (true, { dev with disk := wrote dev.disk fblk src j n, writes := dev.writes + n }) ∨
      ∃ k < n, FirstFail dev k ∧
        rsWriteBlocks dev fblk src j n =
          (false, { dev with disk := wrote dev.disk fblk src j k, writes := dev.writes + k + 1 }) := by
  induction n generalizing dev j with
  | zero =>
    refine Or.inl ⟨fun t ht => absurd ht (Nat.not_lt_zero t), ?_⟩
    rw [rsWriteBlocks, wrote_zero]
    rfl
  | succ n ih =>
    rw [rsWriteBlocks, blkwrite_of_lt (by omega)]
    cases hf : dev.fails dev.writes with
    | true =>
      refine Or.inr ⟨0, Nat.succ_pos n, ⟨fun t ht => absurd ht (Nat.not_lt_zero t), hf⟩, ?_⟩
      rw [wrote_zero, if_pos rfl]
    | false =>
      rw [if_neg Bool.false_ne_true]
      dsimp only
      have hstep := @ih { dev with
        disk := Function.update dev.disk (fblk + j) (dataBlock src j)
        writes := dev.writes + 1 } (j + 1) (by
          show fblk + (j + 1) + n ≤ dev.capacity
          omega)
      simp only [wrote_succ] at hstep
      have hshift : ∀ t, dev.writes + 1 + t = dev.writes + (t + 1) := fun t => by omega
      have hok : ∀ k, (∀ t < k, dev.fails (dev.writes + 1 + t) = false) →
          ∀ t < k + 1, dev.fails (dev.writes + t) = false := by
        intro k hk t ht
        cases t with
        | zero => exact hf
        | succ t =>
          rw [← hshift]
          exact hk t (by omega)
      rcases hstep with ⟨hall, heq⟩ | ⟨k, hk, ⟨hbefore, hfail⟩, heq⟩
      · refine Or.inl ⟨hok n hall, ?_⟩
        rw [heq, hshift]
      · refine Or.inr ⟨k + 1, by omega, ⟨hok k hbefore, ?_⟩, ?_⟩
        · rw [← hshift]
          exact hfail
        · rw [heq, hshift]

/-- The disk when all data has been written and the map marked. -/
def PutPlan.marked (p : PutPlan) (src : List UInt8) (d : Disk Sector) : Disk Sector :=
  Function.update (wrote d p.fblk src 0 p.nclus) 1 p.map

/-- The disk when the directory has been switched. -/
def PutPlan.switched (p : PutPlan) (name : CStr) (src : List UInt8) (d : Disk Sector) :
    Disk Sector :=
  Function.update (p.marked src d) p.root.root (p.newDir name src.length)

/-- The disk when the old clusters have been released. -/
def PutPlan.released (p : PutPlan) (name : CStr) (src : List UInt8) (d : Disk Sector) :
    Disk Sector :=
  Function.update (p.switched name src d) 1 p.freedMap

/-- There are old clusters to release. -/
def PutPlan.Releases (p : PutPlan) : Prop :=
  p.existing = true ∧ (p.newRun = true ∨ p.nclus < p.oldNclus)

instance (p : PutPlan) : Decidable p.Releases := inferInstanceAs (Decidable (_ ∧ _))

/-- The writes before the one to the directory. -/
def PutPlan.before (p : PutPlan) : ℕ := p.nclus + if p.newRun then 1 else 0

/-- What `rs_put_file` returns and leaves, by the first write that fails. -/
inductive PutOutcome (p : PutPlan) (name : CStr) (src : List UInt8) (dev : Dev) :
    ℤ → Disk Sector → Prop
  | data (k : ℕ) (hk : k < p.nclus) (hfail : FirstFail dev k) :
      PutOutcome p name src dev (-12) (wrote dev.disk p.fblk src 0 k)
  | map (hnew : p.newRun = true) (hfail : FirstFail dev p.nclus) :
      PutOutcome p name src dev (-9) (wrote dev.disk p.fblk src 0 p.nclus)
  | dir (d : Disk Sector) (hfail : FirstFail dev p.before)
      (hd : d = p.marked src dev.disk ∨
        p.newRun = true ∧ d = Function.update (p.marked src dev.disk) 1 p.oldMap) :
      PutOutcome p name src dev (-10) d
  | release (hrel : p.Releases) (hfail : FirstFail dev (p.before + 1)) :
      PutOutcome p name src dev (-13) (p.switched name src dev.disk)
  | done (d : Disk Sector)
      (hall : ∀ t < p.before + (if p.Releases then 2 else 1), dev.fails (dev.writes + t) = false)
      (hd : d = if p.Releases then p.released name src dev.disk
        else p.switched name src dev.disk) :
      PutOutcome p name src dev 0 d

theorem fails_extend {dev : Dev} {n : ℕ} (h : ∀ t < n, dev.fails (dev.writes + t) = false)
    (hn : dev.fails (dev.writes + n) = false) :
    ∀ t < n + 1, dev.fails (dev.writes + t) = false := by
  intro t ht
  rcases Nat.lt_succ_iff_lt_or_eq.1 ht with hlt | rfl
  · exact h t hlt
  · exact hn

section Outcome

variable {dev : Dev} {root sects : ℕ} {name : CStr} {src : List UInt8} {p : PutPlan}

/-- The clusters the plan writes are data clusters of the volume. -/
theorem PutPlan.Ok.run_fits (hp : p.Ok name src dev.disk root sects)
    (hvol : Books dev.capacity dev.disk root sects) :
    3 ≤ p.fblk ∧ p.fblk + p.nclus ≤ sects := by
  cases hnew : p.newRun with
  | true =>
    obtain ⟨hfind, -⟩ := hp.run hnew
    obtain ⟨h1, h2, -⟩ := rsFindRun_some hfind
    exact ⟨h1, h2⟩
  | false =>
    obtain ⟨hex, hblk, -, hle⟩ := hp.inPlace hnew
    obtain ⟨hfind, -, hold, hclus⟩ := hp.old hex
    obtain ⟨h1, h2⟩ := hvol.extents p.slot (rsFindSlot_some hfind).1
    rw [hblk, hold]
    rw [hclus] at hle
    omega

theorem PutPlan.Ok.marked_inPlace (hp : p.Ok name src dev.disk root sects)
    (hvol : Books dev.capacity dev.disk root sects) (hnew : p.newRun = false) :
    p.marked src dev.disk = wrote dev.disk p.fblk src 0 p.nclus := by
  obtain ⟨hfit, -⟩ := hp.run_fits hvol
  obtain ⟨-, -, hmap, -⟩ := hp.inPlace hnew
  rw [PutPlan.marked, hmap]
  refine Function.update_eq_self_iff.2 ?_
  rw [wrote_off (by omega)]

/-- **The writes of `rs_put_file`.** -/
theorem rsPutWrites_outcome (hp : p.Ok name src dev.disk root sects)
    (hvol : Books dev.capacity dev.disk root sects) :
    PutOutcome p name src dev (rsPutWrites p name src dev).1 (rsPutWrites p name src dev).2.disk ∧
      (rsPutWrites p name src dev).2.capacity = dev.capacity ∧
      (rsPutWrites p name src dev).2.fails = dev.fails := by
  obtain ⟨hfit3, hfit⟩ := hp.run_fits hvol
  have hfits := hvol.fits
  have hsize := hvol.size
  have hroot : p.root.root < dev.capacity := by rw [hp.onRoot]; exact hfits.2
  unfold rsPutWrites
  rcases @rsWriteBlocks_eq dev p.fblk 0 p.nclus src (by omega) with
    ⟨hdata, heq⟩ | ⟨k, hk, hfail, heq⟩
  · -- all data is written; `dev₁` is the device then
    rw [heq]
    dsimp only
    have hmark : ∃ ok dev₂, (if p.newRun = true then
        Dev.blkwrite { dev with disk := wrote dev.disk p.fblk src 0 p.nclus
                                writes := dev.writes + p.nclus } 1 p.map
        else (true, { dev with disk := wrote dev.disk p.fblk src 0 p.nclus
                               writes := dev.writes + p.nclus })) = (ok, dev₂) ∧
        dev₂.capacity = dev.capacity ∧ dev₂.fails = dev.fails ∧
        (ok = false ∧ p.newRun = true ∧ FirstFail dev p.nclus ∧
            dev₂.disk = wrote dev.disk p.fblk src 0 p.nclus ∨
          ok = true ∧ (∀ t < p.before, dev.fails (dev.writes + t) = false) ∧
            dev₂.writes = dev.writes + p.before ∧ dev₂.disk = p.marked src dev.disk) := by
      cases hnew : p.newRun with
      | false =>
        refine ⟨true, _, if_neg Bool.false_ne_true, rfl, rfl, Or.inr ⟨rfl, ?_, ?_, ?_⟩⟩
        · rw [PutPlan.before, hnew]
          exact hdata
        · rw [PutPlan.before, hnew]
          rfl
        · exact (hp.marked_inPlace hvol hnew).symm
      | true =>
        rw [if_pos rfl, blkwrite_of_lt (by show 1 < dev.capacity; omega)]
        dsimp only
        cases hf : dev.fails (dev.writes + p.nclus) with
        | true => exact ⟨false, _, if_pos rfl, rfl, rfl, Or.inl ⟨rfl, rfl, ⟨hdata, hf⟩, rfl⟩⟩
        | false =>
          refine ⟨true, _, if_neg Bool.false_ne_true, rfl, rfl, Or.inr ⟨rfl, ?_, ?_, rfl⟩⟩
          · rw [PutPlan.before, hnew]
            exact fails_extend hdata hf
          · rw [PutPlan.before, hnew]
            rfl
    obtain ⟨ok, dev₂, heq₂, hcap₂, hfails₂, ⟨rfl, hnew, hfail, hdisk₂⟩ | ⟨rfl, hbefore, hw₂, hdisk₂⟩⟩ :=
      hmark
    · rw [heq₂]
      refine ⟨?_, hcap₂, hfails₂⟩
      dsimp only
      rw [hdisk₂]
      exact .map hnew hfail
    · rw [heq₂]
      dsimp only
      rw [blkwrite_of_lt (by rw [hcap₂]; exact hroot), hfails₂, hw₂]
      cases hf : dev.fails (dev.writes + p.before) with
      | true =>
        rw [if_pos rfl]
        dsimp only
        cases hnew : p.newRun with
        | false =>
          rw [if_neg Bool.false_ne_true]
          exact ⟨.dir _ ⟨hbefore, hf⟩ (Or.inl hdisk₂), hcap₂, rfl⟩
        | true =>
          rw [if_pos rfl, blkwrite_of_lt (by show 1 < dev₂.capacity; omega)]
          dsimp only
          cases dev.fails (dev.writes + p.before + 1) with
          | true =>
            rw [if_pos rfl]
            exact ⟨.dir _ ⟨hbefore, hf⟩ (Or.inl hdisk₂), hcap₂, rfl⟩
          | false =>
            rw [if_neg Bool.false_ne_true]
            refine ⟨.dir _ ⟨hbefore, hf⟩ (Or.inr ⟨hnew, ?_⟩), hcap₂, rfl⟩
            rw [hdisk₂]
      | false =>
        rw [if_neg Bool.false_ne_true]
        dsimp only
        have hswitched : Function.update dev₂.disk p.root.root (p.newDir name src.length) =
            p.switched name src dev.disk := by rw [hdisk₂]; rfl
        rw [hswitched]
        by_cases hrel : p.Releases
        · have hcond : p.existing = true ∧ (p.newRun = true ∨ p.nclus < p.oldNclus) := hrel
          rw [if_pos hcond, blkwrite_of_lt (by show 1 < dev₂.capacity; omega)]
          dsimp only
          cases hf' : dev.fails (dev.writes + p.before + 1) with
          | true =>
            rw [if_pos rfl]
            exact ⟨.release hrel ⟨fails_extend hbefore hf, hf'⟩, hcap₂, rfl⟩
          | false =>
            rw [if_neg Bool.false_ne_true]
            refine ⟨.done _ ?_ (if_pos hrel).symm, hcap₂, rfl⟩
            rw [if_pos hrel]
            exact fails_extend (fails_extend hbefore hf) hf'
        · have hcond : ¬(p.existing = true ∧ (p.newRun = true ∨ p.nclus < p.oldNclus)) := hrel
          rw [if_neg hcond]
          refine ⟨.done _ ?_ (if_neg hrel).symm, hcap₂, rfl⟩
          rw [if_neg hrel]
          exact fails_extend hbefore hf
  · rw [heq]
    exact ⟨.data k hk hfail, rfl, rfl⟩

end Outcome

end ZealBringup.RedSea
