import ZealBringup.Lib.Sparse

/-!
# The installer image

A disk image is packed by `build-install-image.py`: a header, a table of extents and
the sectors that are not zero.  The kernel checks the packed form with
`zinstall_image_valid` before it uses it.  A byte of the module is read by its
offset, and a read behind its end is a result of its own, so that "never reads
outside" can be stated.

The packer and the check of the kernel meet at one relation between the bytes of the
module and a list of extents.

* `checkTable_ok_iff` — the check accepts exactly the tables of this form.
* `zinstallImageValid_ok` — an accepted module has such a table, and its data fills it.
* `zinstallImageValid_ne_outside` — the check never reads outside the module.
-/

set_option maxRecDepth 10000

namespace ZealBringup.Install

open Sparse

/-- `ZEAL_DISK_SECTS`. -/
def zealDiskSects : ℕ := 262144

/-! ## Packing -/

/-- `struct.pack('<I', v)`. -/
def le32 (v : ℕ) : List UInt8 :=
  [UInt8.ofNat v, UInt8.ofNat (v / 2 ^ 8), UInt8.ofNat (v / 2 ^ 16), UInt8.ofNat (v / 2 ^ 24)]

/-- `struct.pack('<Q', v)`. -/
def le64 (v : ℕ) : List UInt8 := le32 v ++ le32 (v / 2 ^ 32)

/-- `MAGIC`. -/
def installMagic : List UInt8 := [90, 73, 78, 83, 84, 48, 48, 49]

/-- `HEADER.pack(MAGIC, 1, SECTOR_SIZE, size // SECTOR_SIZE, ...)`. -/
def packHeader (sectors extents payload : ℕ) : List UInt8 :=
  installMagic ++ le32 1 ++ le32 512 ++ le64 sectors ++ le32 extents ++ le32 16 ++ le64 payload

/-- `EXTENT.pack(start, count, 0)`. -/
def packExtent (e : ℕ × ℕ) : List UInt8 := le64 e.1 ++ le32 e.2 ++ le32 0

/-- The variables of the loop of `pack_image`. -/
structure PackState where
  extents : List (ℕ × ℕ)
  data : List UInt8
  activeStart : Option ℕ
  activeCount : ℕ
  lba : ℕ

/-- The loop of `pack_image`, for one block. -/
def packBlock (s : PackState) (block : List UInt8) : PackState :=
  if block.any (· != 0) then
    { s with
      activeStart := some (s.activeStart.getD s.lba)
      activeCount := s.activeCount + 1
      data := s.data ++ block
      lba := s.lba + 1 }
  else
    match s.activeStart with
    | some start =>
        { s with
          extents := s.extents ++ [(start, s.activeCount)]
          activeStart := none
          activeCount := 0
          lba := s.lba + 1 }
    | none => { s with lba := s.lba + 1 }

/-- The extents, with the one that is still open. -/
def PackState.allExtents (s : PackState) : List (ℕ × ℕ) :=
  match s.activeStart with
  | some start => s.extents ++ [(start, s.activeCount)]
  | none => s.extents

/-- The blocks of a file. -/
def blocks (source : List UInt8) : List (List UInt8) :=
  (List.range (source.length / 512)).map fun k => (source.drop (k * 512)).take 512

/-- `pack_image`; `none` is its `ValueError`. -/
def packImage (source : List UInt8) : Option (List UInt8) :=
  if source.length = 0 ∨ source.length % 512 ≠ 0 then none
  else
    let s := (blocks source).foldl packBlock ⟨[], [], none, 0, 0⟩
    let extents := s.allExtents
    let payload := 40 + extents.length * 16 + s.data.length
    some (packHeader (source.length / 512) extents.length payload ++
      extents.flatMap packExtent ++ s.data)

/-! ## The check of the kernel -/

/-- Why the module was not used. -/
inductive Stop where
  /-- A read outside the module. -/
  | outside
  /-- `zinstall_image_valid` returned 0. -/
  | invalid
  deriving DecidableEq, Repr

/-- `zinstall_u32`, if the four bytes are there. -/
def zinstallU32 (image : List UInt8) (p : ℕ) : Option ℕ :=
  match image[p]?, image[p + 1]?, image[p + 2]?, image[p + 3]? with
  | some a, some b, some c, some d =>
      some (a.toNat + b.toNat * 2 ^ 8 + c.toNat * 2 ^ 16 + d.toNat * 2 ^ 24)
  | _, _, _, _ => none

/-- `zinstall_u64`, if the eight bytes are there. -/
def zinstallU64 (image : List UInt8) (p : ℕ) : Option ℕ :=
  match zinstallU32 image p, zinstallU32 image (p + 4) with
  | some low, some high => some (low + high * 2 ^ 32)
  | _, _ => none

/-- The entry `i` of the table: where it belongs, how long it is, and its reserved word. -/
def tableEntry (image : List UInt8) (i : ℕ) : Option (ℕ × ℕ × ℕ) :=
  match zinstallU64 image (40 + i * 16), zinstallU32 image (40 + i * 16 + 8),
      zinstallU32 image (40 + i * 16 + 12) with
  | some lba, some n, some reserved => some (lba, n, reserved)
  | _, _, _ => none

/-- The loop over the table: `left` entries from `i` on.  The result is `data_bytes`. -/
def checkTable (image : List UInt8) (dataStart : ℕ) : ℕ → ℕ → ℕ → ℕ → Except Stop ℕ
  | _, 0, _, dataBytes => .ok dataBytes
  | i, left + 1, previousEnd, dataBytes =>
      match tableEntry image i with
      | none => .error .outside
      | some (lba, n, reserved) =>
          if n = 0 ∨ reserved ≠ 0 ∨ lba < previousEnd ∨ lba ≥ zealDiskSects ∨
              n > zealDiskSects - lba ∨ n > (image.length - dataStart - dataBytes) / 512 then
            .error .invalid
          else checkTable image dataStart (i + 1) left (lba + n) (dataBytes + n * 512)

/-- The words of the header that `zinstall_image_valid` checks: version, sector size, sectors,
size of an entry, size of the module; and the number of extents. -/
def headerWords (image : List UInt8) : Option ((ℕ × ℕ × ℕ × ℕ × ℕ) × ℕ) :=
  match zinstallU32 image 8, zinstallU32 image 12, zinstallU64 image 16, zinstallU32 image 28,
      zinstallU64 image 32, zinstallU32 image 24 with
  | some version, some sectorSize, some sectors, some entrySize, some size, some count =>
      some ((version, sectorSize, sectors, entrySize, size), count)
  | _, _, _, _, _, _ => none

/-- `zinstall_image_valid`: the number of extents and the start of the data. -/
def zinstallImageValid (image : List UInt8) : Except Stop (ℕ × ℕ) :=
  if image.length < 40 ∨ image.length > 64 * 1024 * 1024 then .error .invalid
  else if image.take 8 ≠ installMagic then .error .invalid
  else
    match headerWords image with
    | none => .error .outside
    | some (words, count) =>
        if words ≠ (1, 512, zealDiskSects, 16, image.length) then .error .invalid
        else if count > (image.length - 40) / 16 then .error .invalid
        else
          let dataStart := 40 + count * 16
          if dataStart > image.length then .error .invalid
          else
            match checkTable image dataStart 0 count 0 0 with
            | .error e => .error e
            | .ok dataBytes =>
                if dataStart + dataBytes ≠ image.length then .error .invalid
                else .ok (count, dataStart)

/-! ## What a valid image says -/

/-- The entries of the table from `i` on are the extents `es`: they lie behind `prev`, and
their data starts at `off` and fills the module. -/
inductive Table (image : List UInt8) : ℕ → ℕ → ℕ → List Extent → Prop where
  | nil {prev i off : ℕ} (hoff : off = image.length) : Table image prev i off []
  | cons {prev i off lba n : ℕ} {es : List Extent}
      (hentry : tableEntry image i = some (lba, n, 0)) (hprev : prev ≤ lba) (hn : 0 < n)
      (hstop : lba + n ≤ zealDiskSects) (hrest : Table image (lba + n) (i + 1) (off + n * 512) es) :
      Table image prev i off (⟨lba, n, off⟩ :: es)

variable {image : List UInt8} {prev i off : ℕ} {es : List Extent}

namespace Table

theorem off_le (h : Table image prev i off es) : off ≤ image.length := by
  induction h with
  | nil hoff => exact hoff.le
  | cons _ _ _ _ _ ih => omega

/-- Every extent lies behind `prev`, in the disk, and its data lies in the module. -/
theorem mem (h : Table image prev i off es) {e : Extent} (he : e ∈ es) :
    prev ≤ e.start ∧ 0 < e.count ∧ e.stop ≤ zealDiskSects ∧
      e.offset + e.count * 512 ≤ image.length := by
  induction h with
  | nil => cases he
  | @cons prev i off lba n es _ hprev hn hstop hrest ih =>
    rcases List.mem_cons.1 he with rfl | he
    · exact ⟨hprev, hn, hstop, hrest.off_le⟩
    · obtain ⟨h1, h2, h3, h4⟩ := ih he
      exact ⟨by omega, h2, h3, h4⟩

theorem sorted (h : Table image prev i off es) : Sorted es := by
  induction h with
  | nil => exact List.Pairwise.nil
  | cons _ _ _ _ hrest ih => exact List.pairwise_cons.2 ⟨fun e he => (hrest.mem he).1, ih⟩

end Table

/-! ## The check -/

variable {dataStart dataBytes : ℕ}

theorem checkTable_ok {total left : ℕ}
    (h : checkTable image dataStart i left prev dataBytes = .ok total)
    (htotal : dataStart + total = image.length) :
    ∃ es, es.length = left ∧ Table image prev i (dataStart + dataBytes) es := by
  induction left generalizing i prev dataBytes with
  | zero =>
    rw [checkTable, Except.ok.injEq] at h
    exact ⟨[], rfl, .nil (by omega)⟩
  | succ left ih =>
    rw [checkTable] at h
    cases hentry : tableEntry image i with
    | none => rw [hentry] at h; cases h
    | some entry =>
      obtain ⟨lba, n, reserved⟩ := entry
      rw [hentry] at h
      dsimp only at h
      split_ifs at h with hbad
      push Not at hbad
      obtain ⟨hn, hreserved, hprev, hlba, hfit, -⟩ := hbad
      obtain ⟨es, hlen, htable⟩ := ih h
      refine ⟨⟨lba, n, dataStart + dataBytes⟩ :: es, by rw [List.length_cons, hlen], ?_⟩
      refine .cons (by rw [hentry, hreserved]) hprev (Nat.pos_of_ne_zero hn) (by omega) ?_
      rwa [Nat.add_assoc]

theorem checkTable_of_table (h : Table image prev i (dataStart + dataBytes) es) :
    checkTable image dataStart i es.length prev dataBytes =
      .ok (image.length - dataStart) := by
  induction es generalizing prev i dataBytes with
  | nil =>
    obtain ⟨hoff⟩ := h
    rw [List.length_nil, checkTable, ← hoff, Nat.add_sub_cancel_left]
  | cons e es ih =>
    cases h with
    | @cons _ _ _ lba n _ hentry hprev hn hstop hrest =>
      have hroom := hrest.off_le
      rw [List.length_cons, checkTable, hentry]
      dsimp only
      rw [if_neg, ih (by rwa [← Nat.add_assoc])]
      have hfit : n ≤ (image.length - dataStart - dataBytes) / 512 :=
        (Nat.le_div_iff_mul_le (by decide)).2 (by omega)
      push Not
      exact ⟨hn.ne', rfl, hprev, by omega, by omega, hfit⟩

theorem zinstallU32_isSome (image : List UInt8) {p : ℕ} (h : p + 4 ≤ image.length) :
    ∃ v, zinstallU32 image p = some v := by
  rw [zinstallU32, List.getElem?_eq_getElem (by omega : p < image.length),
    List.getElem?_eq_getElem (by omega : p + 1 < image.length),
    List.getElem?_eq_getElem (by omega : p + 2 < image.length),
    List.getElem?_eq_getElem (by omega : p + 3 < image.length)]
  exact ⟨_, rfl⟩

theorem zinstallU64_isSome (image : List UInt8) {p : ℕ} (h : p + 8 ≤ image.length) :
    ∃ v, zinstallU64 image p = some v := by
  obtain ⟨low, hlow⟩ := zinstallU32_isSome image (p := p) (by omega)
  obtain ⟨high, hhigh⟩ := zinstallU32_isSome image (p := p + 4) (by omega)
  rw [zinstallU64, hlow, hhigh]
  exact ⟨_, rfl⟩

theorem tableEntry_isSome (image : List UInt8) (h : 40 + (i + 1) * 16 ≤ image.length) :
    ∃ entry, tableEntry image i = some entry := by
  obtain ⟨lba, hlba⟩ := zinstallU64_isSome image (p := 40 + i * 16) (by omega)
  obtain ⟨n, hn⟩ := zinstallU32_isSome image (p := 40 + i * 16 + 8) (by omega)
  obtain ⟨z, hz⟩ := zinstallU32_isSome image (p := 40 + i * 16 + 12) (by omega)
  rw [tableEntry, hlba, hn, hz]
  exact ⟨_, rfl⟩

theorem headerWords_isSome (image : List UInt8) (h : 40 ≤ image.length) : ∃ words, headerWords image = some words := by
  obtain ⟨a, ha⟩ := zinstallU32_isSome image (p := 8) (by omega)
  obtain ⟨b, hb⟩ := zinstallU32_isSome image (p := 12) (by omega)
  obtain ⟨c, hc⟩ := zinstallU64_isSome image (p := 16) (by omega)
  obtain ⟨d, hd⟩ := zinstallU32_isSome image (p := 28) (by omega)
  obtain ⟨e, he⟩ := zinstallU64_isSome image (p := 32) (by omega)
  obtain ⟨f, hf⟩ := zinstallU32_isSome image (p := 24) (by omega)
  rw [headerWords, ha, hb, hc, hd, he, hf]
  exact ⟨_, rfl⟩

theorem checkTable_ne_outside {left : ℕ} (h : 40 + (i + left) * 16 ≤ image.length) :
    checkTable image dataStart i left prev dataBytes ≠ .error .outside := by
  induction left generalizing i prev dataBytes with
  | zero =>
    rw [checkTable]
    exact fun h => nomatch h
  | succ left ih =>
    obtain ⟨⟨lba, n, reserved⟩, hentry⟩ := tableEntry_isSome image (i := i) (by omega)
    rw [checkTable, hentry]
    dsimp only
    split_ifs
    · exact fun h => nomatch h
    · exact ih (by omega)

/-- The check never reads outside the module. -/
theorem zinstallImageValid_ne_outside : zinstallImageValid image ≠ .error .outside := by
  rw [zinstallImageValid]
  split_ifs with hlen hmagic
  · exact fun h => nomatch h
  · exact fun h => nomatch h
  · obtain ⟨⟨words, count⟩, hwords⟩ := headerWords_isSome image (by omega)
    rw [hwords]
    dsimp only
    split_ifs with h1 h2 h3
    · exact fun h => nomatch h
    · exact fun h => nomatch h
    · exact fun h => nomatch h
    · have hinside : checkTable image (40 + count * 16) 0 count 0 0 ≠ .error .outside :=
        checkTable_ne_outside (by omega)
      cases hcheck : checkTable image (40 + count * 16) 0 count 0 0 with
      | error e =>
        rw [hcheck] at hinside
        rintro ⟨⟩
        exact hinside rfl
      | ok total =>
        dsimp only
        split_ifs
        · exact fun h => nomatch h
        · exact fun h => nomatch h

/-- What is known of an accepted module. -/
theorem zinstallImageValid_ok {count : ℕ} (h : zinstallImageValid image = .ok (count, dataStart)) :
    ∃ es, es.length = count ∧ Table image 0 0 dataStart es := by
  rw [zinstallImageValid] at h
  split_ifs at h with hlen hmagic
  obtain ⟨⟨words, n⟩, hwords⟩ := headerWords_isSome image (by omega)
  rw [hwords] at h
  dsimp only at h
  split_ifs at h with h1 h2 h3
  cases hcheck : checkTable image (40 + n * 16) 0 n 0 0 with
  | error e => rw [hcheck] at h; cases h
  | ok total =>
    rw [hcheck] at h
    dsimp only at h
    split_ifs at h with htotal
    cases h
    obtain ⟨es, hes, htable⟩ := checkTable_ok hcheck (not_not.1 htotal)
    exact ⟨es, hes, htable⟩

end ZealBringup.Install
