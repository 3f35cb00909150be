import ZealBringup.Install.Installed

/-!
# The whole way

* `Faithful` — a target of the right size that can flush and stores what is written.
* `*_faithful` — what each loop does to the sectors of such a target.
* `installer_image_round_trip` — the main result.
-/

set_option maxRecDepth 10000

namespace ZealBringup.Install

open Sparse

/-- The sector `k` of some bytes. -/
def chunk (bytes : List UInt8) (k : ℕ) : List UInt8 := (bytes.drop (k * 512)).take 512

/-- A target of the size of the image that can flush, takes what the driver admits and stores
what is written; `content` are its sectors. -/
structure Faithful {σ : Type} (t : Target σ) (content : σ → ℕ → List UInt8) : Prop where
  absoluteReady : t.absoluteReady = true
  fullCapacity : t.fullCapacity = zealDiskSects
  maxSectors : 0 < t.maxSectors ∧ t.maxSectors * 512 ≤ 65536
  write : ∀ dev lba count bytes, bytes.length = count * 512 → 0 < count → count ≤ t.maxSectors →
    lba + count ≤ zealDiskSects → (t.writeAbsMany dev lba bytes).1 = true ∧
      ∀ s, content (t.writeAbsMany dev lba bytes).2 s =
        if lba ≤ s ∧ s < lba + count then chunk bytes (s - lba) else content dev s
  read : ∀ dev lba count, 0 < count → count ≤ t.maxSectors → lba + count ≤ zealDiskSects →
    ∃ buf, (t.readAbsMany dev lba count).1 = some buf ∧
      (∀ k, k < count → sectorOf buf k = content dev (lba + k)) ∧
      content (t.readAbsMany dev lba count).2 = content dev
  flush : ∀ dev, (t.flushAbs dev).1 = true ∧ content (t.flushAbs dev).2 = content dev

variable {σ : Type} {t : Target σ} {content : σ → ℕ → List UInt8} {image : List UInt8}
  {es : List Extent}

namespace Faithful

theorem run_write (h : Faithful t content) (r : Run σ) (lba count : ℕ) {bytes : List UInt8}
    (hbytes : bytes.length = count * 512) (hpos : 0 < count) (hmax : count ≤ t.maxSectors)
    (hin : lba + count ≤ zealDiskSects) :
    ∃ r', r.write t lba bytes = (true, r') ∧ ∀ s, content r'.dev s =
      if lba ≤ s ∧ s < lba + count then chunk bytes (s - lba) else content r.dev s := by
  obtain ⟨hok, hcontent⟩ := h.write r.dev lba count bytes hbytes hpos hmax hin
  exact ⟨_, by rw [Run.write, hok], hcontent⟩

theorem run_read (h : Faithful t content) (r : Run σ) (lba count : ℕ) (hpos : 0 < count)
    (hmax : count ≤ t.maxSectors) (hin : lba + count ≤ zealDiskSects) :
    ∃ buf r', r.read t lba count = (some buf, r') ∧
      (∀ k, k < count → sectorOf buf k = content r.dev (lba + k)) ∧
      content r'.dev = content r.dev := by
  obtain ⟨buf, hok, hbuf, hcontent⟩ := h.read r.dev lba count hpos hmax hin
  exact ⟨buf, _, by rw [Run.read, hok], hbuf, hcontent⟩

theorem run_flush (h : Faithful t content) (r : Run σ) :
    ∃ r', r.flushDisk t = (true, r') ∧ content r'.dev = content r.dev := by
  obtain ⟨hok, hcontent⟩ := h.flush r.dev
  exact ⟨_, by rw [Run.flushDisk, if_pos h.absoluteReady, hok], hcontent⟩

end Faithful

theorem chunk_replicate {n k : ℕ} (h : k < n) :
    chunk (List.replicate (n * 512) (0 : UInt8)) k = zeroSector := by
  rw [chunk, List.drop_replicate, List.take_replicate, zeroSector, Nat.min_eq_left]
  omega

/-- A sector of a stretch of the module. -/
theorem chunk_slice {off n k : ℕ} (h : k < n) :
    chunk ((image.drop off).take (n * 512)) k = (image.drop (off + k * 512)).take 512 := by
  rw [chunk, List.drop_take, List.take_take, List.drop_drop, Nat.min_eq_left (by omega)]

/-! ## The loops -/

theorem eraseLoop_faithful (h : Faithful t content) {hmax : 0 < t.maxSectors} (sector : ℕ)
    (r : Run σ) :
    ∃ r', eraseLoop t zealDiskSects t.maxSectors hmax sector r = (none, r') ∧
      ∀ s, content r'.dev s =
        if sector ≤ s ∧ s < zealDiskSects then zeroSector else content r.dev s := by
  fun_induction eraseLoop t zealDiskSects t.maxSectors hmax sector r with
  | case1 sector r hlt batch r' hwrite =>
    obtain ⟨r'', hok, -⟩ := h.run_write r sector batch
      List.length_replicate (by omega) (by omega) (by omega)
    rw [hok] at hwrite
    cases hwrite
  | case2 sector r hlt batch r' hwrite ih =>
    obtain ⟨r'', hok, hcontent⟩ := h.run_write r sector batch
      List.length_replicate (by omega) (by omega) (by omega)
    rw [hok] at hwrite
    cases hwrite
    obtain ⟨r₁, hloop, hrest⟩ := ih
    refine ⟨r₁, hloop, fun s => ?_⟩
    rw [hrest, hcontent]
    by_cases h1 : sector ≤ s ∧ s < zealDiskSects
    · rw [if_pos h1]
      by_cases h2 : sector + batch ≤ s
      · rw [if_pos ⟨h2, h1.2⟩]
      · rw [if_neg fun hh => h2 hh.1, if_pos ⟨h1.1, not_le.1 h2⟩, chunk_replicate (by omega)]
    · rw [if_neg h1, if_neg (by omega), if_neg (by omega)]
  | case3 sector r hge => exact ⟨r, rfl, fun s => by rw [if_neg (by omega)]⟩

theorem writeBatches_faithful (h : Faithful t content) {payloadOff lba : ℕ}
    {hmax : 0 < t.maxSectors} (done left : ℕ) (r : Run σ)
    (hroom : payloadOff + (done + left) * 512 ≤ image.length)
    (hin : lba + (done + left) ≤ zealDiskSects) :
    ∃ r', writeBatches t image t.maxSectors hmax payloadOff lba done left r = (none, r') ∧
      ∀ s, content r'.dev s = if lba + done ≤ s ∧ s < lba + (done + left) then
        (image.drop (payloadOff + (s - lba) * 512)).take 512 else content r.dev s := by
  fun_induction writeBatches t image t.maxSectors hmax payloadOff lba done left r with
  | case1 done r => exact ⟨r, rfl, fun s => by rw [if_neg (by omega)]⟩
  | case2 done left r hleft batch hbytes =>
    rw [moduleBytes, if_pos (by omega)] at hbytes
    cases hbytes
  | case3 done left r hleft batch src hbytes r' hwrite =>
    rw [moduleBytes, if_pos (by omega), Option.some.injEq] at hbytes
    have hlen : src.length = batch * 512 := by
      rw [← hbytes, List.length_take, List.length_drop]
      omega
    obtain ⟨r'', hok, -⟩ := h.run_write r (lba + done) batch hlen (by omega) (by omega) (by omega)
    rw [hok] at hwrite
    cases hwrite
  | case4 done left r hleft batch src hbytes r' hwrite ih =>
    rw [moduleBytes, if_pos (by omega), Option.some.injEq] at hbytes
    have hlen : src.length = batch * 512 := by
      rw [← hbytes, List.length_take, List.length_drop]
      omega
    obtain ⟨r'', hok, hcontent⟩ :=
      h.run_write r (lba + done) batch hlen (by omega) (by omega) (by omega)
    rw [hok] at hwrite
    cases hwrite
    obtain ⟨r₁, hloop, hrest⟩ := ih (by omega) (by omega)
    refine ⟨r₁, hloop, fun s => ?_⟩
    rw [hrest, hcontent]
    by_cases h1 : lba + done ≤ s ∧ s < lba + (done + left)
    · rw [if_pos h1]
      by_cases h2 : lba + (done + batch) ≤ s
      · rw [if_pos ⟨h2, by omega⟩]
      · rw [if_neg fun hh => h2 hh.1, if_pos ⟨h1.1, by omega⟩, ← hbytes, chunk_slice (by omega),
          Nat.add_assoc, ← Nat.add_mul]
        congr 3
        omega
    · rw [if_neg h1, if_neg (by omega), if_neg (by omega)]

/-- After the extents every sector that has one is what the module says. -/
theorem writeExtents_faithful (h : Faithful t content) {prev e payloadOff : ℕ}
    {hmax : 0 < t.maxSectors} {r : Run σ} (htable : Table image prev e payloadOff es) :
    ∃ r', writeExtents t image t.maxSectors hmax e es.length payloadOff r = (none, r') ∧
      ∀ s, content r'.dev s = match place 512 es s with
        | some off => (image.drop off).take 512
        | none => content r.dev s := by
  induction es generalizing prev e payloadOff r with
  | nil => exact ⟨r, rfl, fun s => rfl⟩
  | cons f es ih =>
    cases htable with
    | @cons _ _ _ lba n _ hentry hprev hn hstop hrest =>
      have hroom := hrest.off_le
      obtain ⟨r₁, hbatches, hcontent⟩ := @writeBatches_faithful _ t content image h payloadOff lba
        hmax 0 n r (by omega) (by omega)
      obtain ⟨r₂, hloop, hafter⟩ := @ih _ _ _ r₁ hrest
      rw [List.length_cons, writeExtents, extentEntry_of_tableEntry hentry]
      dsimp only
      rw [hbatches]
      refine ⟨r₂, hloop, fun s => ?_⟩
      rw [hafter, hcontent, Nat.zero_add, Nat.add_zero]
      by_cases hs : lba ≤ s ∧ s < lba + n
      · have hhas : Extent.Has ⟨lba, n, payloadOff⟩ s := hs
        have hnone : place 512 es s = none := by
          rw [place, find_none_iff.2 fun g hg hh => ?_, Option.map_none]
          have := (hrest.mem hg).1
          have := hh.1
          omega
        rw [hnone, if_pos hs, place, find_cons_of_has hhas]
        rfl
      · have hnot : ¬Extent.Has ⟨lba, n, payloadOff⟩ s := hs
        rw [if_neg hs, place, place, find_cons_of_not hnot]

theorem checkSectors_ok {buf : ℕ → UInt8} {sector left extentCount : ℕ} {c : Cursor}
    (hsorted : Sorted es) (hinv : CursorInv image es extentCount c sector)
    (hbuf : ∀ k, k < left → sectorOf buf k = expectedSector image es (sector + k)) :
    ∃ c', checkSectors image extentCount buf sector 0 left c = .ok c' ∧
      CursorInv image es extentCount c' (sector + left) := by
  rcases @checkSectors_spec _ _ _ buf _ 0 left _ hsorted hinv with
    ⟨c', hok, hinv', -⟩ | ⟨s, k, hk, hne, -⟩
  · rw [Nat.zero_add] at hinv'
    exact ⟨c', hok, hinv'⟩
  · rw [Nat.zero_add] at hne
    exact absurd (hbuf k hk) hne

theorem verifyLoop_faithful (h : Faithful t content) {hmax : 0 < t.maxSectors}
    (hsorted : Sorted es) (sector : ℕ) (c : Cursor) (r : Run σ)
    (hinv : CursorInv image es es.length c sector)
    (hcontent : ∀ s, s < zealDiskSects → content r.dev s = expectedSector image es s) :
    ∃ r', verifyLoop t image es.length zealDiskSects t.maxSectors hmax sector c r = (none, r') ∧
      content r'.dev = content r.dev := by
  fun_induction verifyLoop t image es.length zealDiskSects t.maxSectors hmax sector c r with
  | case1 sector c r hlt batch r' hread =>
    obtain ⟨buf, r₁, hok, -⟩ := h.run_read r sector batch (by omega) (by omega) (by omega)
    rw [hok] at hread
    cases hread
  | case2 sector c r hlt batch buf r' hread report hcheck =>
    obtain ⟨buf', r₁, hok, hbuf, -⟩ := h.run_read r sector batch (by omega) (by omega) (by omega)
    rw [hok] at hread
    cases hread
    obtain ⟨c', hcheck', -⟩ := checkSectors_ok hsorted hinv fun k hk => by
      rw [hbuf k hk, hcontent _ (by omega)]
    rw [hcheck'] at hcheck
    cases hcheck
  | case3 sector c r hlt batch buf r' hread c' hcheck ih =>
    obtain ⟨buf', r₁, hok, hbuf, hsame⟩ :=
      h.run_read r sector batch (by omega) (by omega) (by omega)
    rw [hok] at hread
    cases hread
    obtain ⟨c'', hcheck', hinv'⟩ := checkSectors_ok hsorted hinv fun k hk => by
      rw [hbuf k hk, hcontent _ (by omega)]
    rw [hcheck'] at hcheck
    cases hcheck
    obtain ⟨r₂, hloop, hrest⟩ := ih hinv' fun s hs => by rw [hsame, hcontent s hs]
    exact ⟨r₂, hloop, hrest.trans hsame⟩
  | case4 sector c r hge => exact ⟨r, rfl, rfl⟩

/-- On a faithful target the command installs what the module says. -/
theorem zinstallHandle_faithful (h : Faithful t content) {dataStart : ℕ}
    (hvalid : zinstallImageValid image = .ok (es.length, dataStart))
    (htable : Table image 0 0 dataStart es) (dev : σ) :
    ∃ r, zinstallHandle t image eraseWord dev = (.installed, r) ∧
      ∀ s, s < zealDiskSects → content r.dev s = expectedSector image es s := by
  have hready := h.absoluteReady
  have hmax := h.maxSectors
  obtain ⟨r₀, hflush₀, -⟩ := h.run_flush ⟨dev, []⟩
  obtain ⟨r₁, herase, hc₁⟩ := @eraseLoop_faithful _ _ _ h hmax.1 0 r₀
  obtain ⟨r₂, hflush₂, hc₂⟩ := h.run_flush r₁
  obtain ⟨r₃, hwrite, hc₃⟩ := @writeExtents_faithful _ _ _ _ _ h _ _ _ hmax.1 r₂ htable
  obtain ⟨r₄, hflush₄, hc₄⟩ := h.run_flush r₃
  have hcontent : ∀ s, s < zealDiskSects → content r₄.dev s = expectedSector image es s := by
    intro s hs
    rw [hc₄, hc₃, hc₂, hc₁, if_pos ⟨Nat.zero_le _, hs⟩]
    rfl
  obtain ⟨r₅, hverify, hc₅⟩ := @verifyLoop_faithful _ _ _ _ _ h hmax.1 htable.sorted 0
    ⟨0, dataStart⟩ r₄ ⟨es, 0, htable, Nat.zero_add _, fun _ _ => rfl⟩ hcontent
  obtain ⟨r₆, hflush₆, hc₆⟩ := h.run_flush r₅
  refine ⟨r₆, ?_, fun s hs => by rw [hc₆, hc₅, hcontent s hs]⟩
  have hloops : installLoops t image es.length dataStart t.maxSectors hmax.1 r₀ =
      (.installed, r₆) := by
    rw [installLoops, herase]
    dsimp only
    rw [hflush₂]
    dsimp only
    rw [hwrite]
    dsimp only
    rw [hflush₄]
    dsimp only
    rw [hverify]
    dsimp only
    rw [hflush₆]
  have htarget : ¬(t.absoluteReady = false ∨ t.fullCapacity ≠ zealDiskSects) := by
    rw [hready, h.fullCapacity]
    simp
  have hwindow : ¬(t.maxSectors = 0 ∨ t.maxSectors * 512 > 65536) := by omega
  rw [zinstallHandle, hvalid]
  dsimp only
  rw [if_neg htarget, hflush₀]
  dsimp only
  rw [if_neg (not_not.2 rfl), dif_neg hwindow]
  exact hloops

/-! ## The main result -/

/-- All the bytes of the target. -/
def diskBytes (content : σ → ℕ → List UInt8) (dev : σ) : List UInt8 :=
  (List.range zealDiskSects).flatMap (content dev)

theorem flatMap_chunk (source : List UInt8) (n : ℕ) :
    (List.range n).flatMap (chunk source) = source.take (n * 512) := by
  induction n with
  | zero => rw [Nat.zero_mul, List.take_zero]; rfl
  | succ n ih =>
    rw [List.range_succ, List.flatMap_append, ih, List.flatMap_singleton, chunk, Nat.succ_mul,
      List.take_add]

theorem packImage_isSome {source : List UInt8} (hlen : source.length = zealDiskSects * 512) :
    ∃ image, packImage source = some image := by
  rw [packImage, if_neg (by rw [hlen]; simp [zealDiskSects])]
  exact ⟨_, rfl⟩

/-- **The installer image round trip.**  What the packer makes of a disk image is accepted by the
kernel, and on every faithful target the command ends with the image on the disk and reports
success.  With any module and on any target: the module is read only inside, success is reported
only when every sector was read back and was what the module says, and nothing is written before
the module, the capacity, the flush and the confirmation were checked. -/
theorem installer_image_round_trip :
    (∀ source : List UInt8, source.length = zealDiskSects * 512 →
      ∃ image, packImage source = some image ∧ (image.length ≤ 64 * 1024 * 1024 →
        (∃ count dataStart, zinstallImageValid image = .ok (count, dataStart)) ∧
        ∀ (σ : Type) (t : Target σ) (content : σ → ℕ → List UInt8), Faithful t content →
          ∀ dev, (zinstallHandle t image eraseWord dev).1 = .installed ∧
            diskBytes content (zinstallHandle t image eraseWord dev).2.dev = source)) ∧
    ∀ (σ : Type) (t : Target σ) (image args : List UInt8) (dev : σ),
      (zinstallHandle t image args dev).1 ≠ .outside ∧
      ((zinstallHandle t image args dev).1 = .installed →
        ∃ es dataStart, zinstallImageValid image = .ok (es.length, dataStart) ∧
          Table image 0 0 dataStart es ∧
          Verified image es (zinstallHandle t image args dev).2.log) ∧
      ∀ lba bytes ok, Event.write lba bytes ok ∈ (zinstallHandle t image args dev).2.log →
        (∃ count dataStart, zinstallImageValid image = .ok (count, dataStart)) ∧
          t.absoluteReady = true ∧ t.fullCapacity = zealDiskSects ∧ args = eraseWord ∧
          ∃ rest, (zinstallHandle t image args dev).2.log = .flush true :: rest := by
  refine ⟨fun source hlen => ?_, fun σ t image args dev => zinstallHandle_log image args dev⟩
  obtain ⟨image, himage⟩ := packImage_isSome hlen
  refine ⟨image, himage, fun hsize => ?_⟩
  obtain ⟨es, dataStart, hvalid, htable, hsectors⟩ := packImage_some hlen himage hsize
  refine ⟨⟨_, _, hvalid⟩, fun σ t content hfaithful dev => ?_⟩
  obtain ⟨r, hrun, hcontent⟩ := zinstallHandle_faithful hfaithful hvalid htable dev
  rw [hrun]
  refine ⟨rfl, ?_⟩
  calc diskBytes content r.dev
      = (List.range zealDiskSects).flatMap (chunk source) :=
        List.flatMap_congr fun s hs => by
          rw [hcontent s (List.mem_range.1 hs), hsectors s (List.mem_range.1 hs), chunk]
    _ = source.take (zealDiskSects * 512) := flatMap_chunk source _
    _ = source := List.take_of_length_le hlen.le

/-! ## A target that stores what is written -/

/-- The argument checks of `virtio_blk_rw_sectors`. -/
def refused (maxSectors lba count : ℕ) : Prop :=
  count = 0 ∨ lba ≥ zealDiskSects ∨ count > zealDiskSects - lba ∨ count > maxSectors

instance (maxSectors lba count : ℕ) : Decidable (refused maxSectors lba count) :=
  inferInstanceAs (Decidable (_ ∨ _ ∨ _ ∨ _))

/-- A target that is an array of bytes. -/
def storing (maxSectors : ℕ) : Target (ℕ → UInt8) where
  absoluteReady := true
  fullCapacity := zealDiskSects
  maxSectors := maxSectors
  writeAbsMany dev lba bytes :=
    if refused maxSectors lba (bytes.length / 512) then (false, dev)
    else (true, fun k => if lba * 512 ≤ k ∧ k < lba * 512 + bytes.length then
      bytes.getD (k - lba * 512) 0 else dev k)
  readAbsMany dev lba count :=
    if refused maxSectors lba count then (none, dev)
    else (some fun k => dev (lba * 512 + k), dev)
  flushAbs dev := (true, dev)

theorem storing_faithful {maxSectors : ℕ} (hpos : 0 < maxSectors)
    (hmax : maxSectors * 512 ≤ 65536) : Faithful (storing maxSectors) sectorOf where
  absoluteReady := rfl
  fullCapacity := rfl
  maxSectors := ⟨hpos, hmax⟩
  write dev lba count bytes hbytes hcount hle hin := by
    have hok : ¬refused maxSectors lba (bytes.length / 512) := by
      rw [hbytes, Nat.mul_div_cancel _ (by decide)]
      unfold refused
      have hle' : count ≤ maxSectors := hle
      omega
    rw [show (storing maxSectors).writeAbsMany dev lba bytes = _ from if_neg hok]
    refine ⟨rfl, fun s => ?_⟩
    by_cases hs : lba ≤ s ∧ s < lba + count
    · rw [if_pos hs]
      refine List.ext_getElem ?_ fun b hb hb' => ?_
      · rw [sectorOf, List.length_map, List.length_range, chunk, List.length_take,
          List.length_drop]
        omega
      · rw [sectorOf, List.length_map, List.length_range] at hb
        simp only [sectorOf, chunk, List.getElem_map, List.getElem_range, List.getElem_take,
          List.getElem_drop]
        rw [if_pos (by omega), List.getD_eq_getElem _ _ (by omega)]
        congr 1
        omega
    · rw [if_neg hs]
      refine List.map_congr_left fun b hb => ?_
      rw [List.mem_range] at hb
      exact if_neg (by omega)
  read dev lba count hcount hle hin := by
    have hok : ¬refused maxSectors lba count := by
      unfold refused
      have hle' : count ≤ maxSectors := hle
      omega
    rw [show (storing maxSectors).readAbsMany dev lba count = _ from if_neg hok]
    refine ⟨_, rfl, fun k hk => List.map_congr_left fun b _ => ?_, rfl⟩
    dsimp only
    congr 1
    omega
  flush dev := ⟨rfl, rfl⟩

/-- Blocks of zeros leave no extents. -/
theorem foldl_packBlock_zero (bs : List (List UInt8)) (hbs : ∀ b ∈ bs, ¬b.any (· != 0) = true)
    (lba : ℕ) : bs.foldl packBlock ⟨[], [], none, 0, lba⟩ = ⟨[], [], none, 0, lba + bs.length⟩ := by
  induction bs generalizing lba with
  | nil => rfl
  | cons b bs ih =>
    rw [List.foldl_cons, packBlock, if_neg (hbs b (List.mem_cons_self ..))]
    dsimp only
    rw [ih fun b' hb' => hbs b' (List.mem_cons_of_mem _ hb'), List.length_cons, Nat.add_assoc,
      Nat.add_comm 1]

/-- An empty disk is packed into a header. -/
theorem packImage_zero (n : ℕ) (hn : 0 < n) :
    packImage (List.replicate (n * 512) 0) = some (packHeader n 0 40) := by
  have hblocks : ∀ b ∈ blocks (List.replicate (n * 512) 0), ¬b.any (· != 0) = true := by
    intro b hb
    obtain ⟨k, -, rfl⟩ := List.mem_map.1 hb
    rw [List.drop_replicate, List.take_replicate]
    simp
  rw [packImage, List.length_replicate, Nat.mul_div_cancel _ (by decide), if_neg (by omega)]
  dsimp only
  rw [foldl_packBlock_zero _ hblocks]
  rfl

theorem installer_image_round_trip_zeroDisk :
    ∃ image, packImage (List.replicate (zealDiskSects * 512) 0) = some image ∧
      (zinstallHandle (storing 128) image eraseWord fun _ => 255).1 = .installed ∧
      diskBytes sectorOf (zinstallHandle (storing 128) image eraseWord fun _ => 255).2.dev =
        List.replicate (zealDiskSects * 512) 0 := by
  obtain ⟨image, himage, hinstall⟩ := installer_image_round_trip.1
    (List.replicate (zealDiskSects * 512) 0) List.length_replicate
  have heq := packImage_zero zealDiskSects (by decide)
  rw [himage, Option.some.injEq] at heq
  have hsize : image.length ≤ 64 * 1024 * 1024 := by
    rw [heq]
    decide
  exact ⟨image, himage, (hinstall hsize).2 _ (storing 128) sectorOf
    (storing_faithful (by decide) (by decide)) fun _ => 255⟩

end ZealBringup.Install
