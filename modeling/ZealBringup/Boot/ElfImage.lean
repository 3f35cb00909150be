import ZealBringup.Boot.ElfBounds

/-!
# What the ELF loader makes of a well-formed file

For a position-independent kernel whose tables are in order the loader returns the entry, and
the image is what the file describes.

* `WellFormedPie` — files in order, with the relocations that their dynamic table lists.
* `relocated_eq` — relocations off their own table are pieces laid over the segments.
* `load_kernel_elf_correct` — the image, byte by byte.
* `table_at_zero_skipped` — a relocation table at address 0 is passed over.
-/

namespace ZealBringup.Boot

open Overlay Checked

/-! ## Well-formed files -/

section WellFormed

variable (m : BootModule)

/-- `d_tag` of the entry `k` of the dynamic table at `off`. -/
def dynTag (off k : ℕ) : ℕ := m.field (off + 16 * k) 8

/-- `d_un` of the entry. -/
def dynValue (off k : ℕ) : ℕ := m.field (off + 16 * k + 8) 8

/-- `sh[i].sh_offset`. -/
def shOffset (i : ℕ) : ℕ := m.val (shdr m.ehdr i + 24) 8

/-- The headers name the dynamic table at `off`, and no other: a `PT_DYNAMIC` segment, or in a file
without one a `SHT_DYNAMIC` section. -/
inductive NamesDynamic (off : ℕ) : Prop
  | segment (named : ∃ i < m.ehdr.phnum, phType m m.ehdr i = ptDynamic)
      (only : ∀ i < m.ehdr.phnum, phType m m.ehdr i = ptDynamic → phOffset m m.ehdr i = off)
  | sect (segments : ∀ i < m.ehdr.phnum, phType m m.ehdr i ≠ ptDynamic) (shoff : m.ehdr.shoff ≠ 0)
      (named : ∃ i < m.ehdr.shnum, shType m m.ehdr i = shtDynamic)
      (only : ∀ i < m.ehdr.shnum, shType m m.ehdr i = shtDynamic → shOffset m i = off)

/-- The headers name no dynamic table. -/
def NamesNoDynamic : Prop :=
  (∀ i < m.ehdr.phnum, phType m m.ehdr i ≠ ptDynamic) ∧
    (m.ehdr.shoff ≠ 0 → ∀ i < m.ehdr.shnum, shType m m.ehdr i ≠ shtDynamic)

/-- The dynamic table of the file is at `off` and has `count` entries before its `DT_NULL`. -/
structure DynamicTable (off count : ℕ) : Prop where
  named : NamesDynamic m off
  inside : off + 16 * (count + 1) ≤ m.size
  tags : ∀ k < count, dynTag m off k ≠ dtNull
  null : dynTag m off count = dtNull

/-- The dynamic table has an entry with this tag, and all of them say `v`. -/
def Says (off count tag v : ℕ) : Prop :=
  (∃ k < count, dynTag m off k = tag) ∧ ∀ k < count, dynTag m off k = tag → dynValue m off k = v

/-- No section with relocations is part of the image. -/
def NoRelaSections : Prop :=
  m.ehdr.shoff ≠ 0 → ∀ i < m.ehdr.shnum, RelaSection m m.ehdr i → shAddr m m.ehdr i = 0

/-- The dynamic table lists the `n` relocations at `rela`. -/
inductive Lists (rela : ℕ) : ℕ → Prop
  | table {off count n : ℕ} (dynamic : DynamicTable m off count) (addr : Says m off count dtRela rela)
      (size : Says m off count dtRelasz (24 * n)) (entsize : Says m off count dtRelaent 24) (pos : 0 < n) :
      Lists rela n
  | empty {off count : ℕ} (dynamic : DynamicTable m off count)
      (none : (∀ k < count, dynTag m off k ≠ dtRela) ∨ (∀ k < count, dynTag m off k ≠ dtRelasz) ∨
        Says m off count dtRelasz 0) (sections : NoRelaSections m) : Lists rela 0
  | static (none : NamesNoDynamic m) (sections : NoRelaSections m) : Lists rela 0

/-- The relocation `k` of the table at `rela`, as the segments have it. -/
def fileRecord (rela k : ℕ) : Elf64Rela := recordAt (segmentImage m) rela k

/-- The 8 bytes of the slot of a relocation. -/
def InSlot (rela k a : ℕ) : Prop :=
  (fileRecord m rela k).type = rAArch64Relative ∧ (fileRecord m rela k).offset ≤ a ∧
    a < (fileRecord m rela k).offset + 8

/-- The address is among those that segment `i` has from the file. -/
def InSegment (i a : ℕ) : Prop :=
  i < m.ehdr.phnum ∧ phType m m.ehdr i = ptLoad ∧ phVaddr m m.ehdr i ≤ a ∧
    a < phVaddr m m.ehdr i + phFilesz m m.ehdr i

/-- A well-formed AArch64 kernel for any address, with `n` relocations at `rela`. -/
structure WellFormedPie (rela n : ℕ) : Prop where
  size : sizeofElf64Ehdr ≤ m.size
  ident : m.ehdr.ident = elfMag
  machine : m.ehdr.machine = emAArch64
  type : m.ehdr.type = etDyn
  phdrs : m.ehdr.phoff + 56 * m.ehdr.phnum ≤ m.size
  shdrs : m.ehdr.shoff ≠ 0 → m.ehdr.shoff + 64 * m.ehdr.shnum ≤ m.size
  /-- What a segment has from the file is in the file and in the segment. -/
  segments : ∀ i < m.ehdr.phnum, phType m m.ehdr i = ptLoad →
    phFilesz m m.ehdr i ≤ phMemsz m m.ehdr i ∧
      phOffset m m.ehdr i + phFilesz m m.ehdr i ≤ m.size ∧
      phVaddr m m.ehdr i + phMemsz m m.ehdr i < 2 ^ 64
  /-- No address is in two segments. -/
  apart : ∀ i j, i < j → j < m.ehdr.phnum → phType m m.ehdr i = ptLoad →
    phType m m.ehdr j = ptLoad →
      phVaddr m m.ehdr i + phMemsz m m.ehdr i ≤ phVaddr m m.ehdr j ∨
      phVaddr m m.ehdr j + phMemsz m m.ehdr j ≤ phVaddr m m.ehdr i
  /-- The entry is in a segment. -/
  entry : ∃ i < m.ehdr.phnum, phType m m.ehdr i = ptLoad ∧ phVaddr m m.ehdr i ≤ m.ehdr.entry ∧
    m.ehdr.entry < phVaddr m m.ehdr i + phMemsz m m.ehdr i
  lists : Lists m rela n
  /-- The relocations are in the image, and of types that need no symbols. -/
  records : rela + 24 * n ≤ imageEndOf m m.ehdr ∧ ∀ k < n, (fileRecord m rela k).Supported
  /-- Their slots are in the image, outside of the table, and apart. -/
  slots : ∀ k < n, ∀ a, InSlot m rela k a →
    a < imageEndOf m m.ehdr ∧ (a < rela ∨ rela + 24 * n ≤ a) ∧ ∀ j < n, InSlot m rela j a → j = k

end WellFormed

/-- What is to be in memory: the slots are relocated to `dest`, the rest of the segments is as in
the file, and all else is zero. -/
structure Relocates (m : BootModule) (rela n dest : ℕ) (image : ℕ → UInt8) : Prop where
  slot : ∀ k < n, (fileRecord m rela k).type = rAArch64Relative →
    leNat (window image (fileRecord m rela k).offset 8) =
      u64 (dest + (fileRecord m rela k).addend)
  segment : ∀ i a, InSegment m i a → (∀ k < n, ¬InSlot m rela k a) →
    m.bytes[phOffset m m.ehdr i + (a - phVaddr m m.ehdr i)]? = some (image a)
  zero : ∀ a, (∀ i, ¬InSegment m i a) → (∀ k < n, ¬InSlot m rela k a) → image a = 0

/-! ## The segments of a well-formed file -/

section Segments

variable {m : BootModule}

theorem le_segmentEnd (eh : Elf64Ehdr) (imageEnd i : ℕ) : imageEnd ≤ segmentEnd m eh imageEnd i := by
  unfold segmentEnd
  split
  · exact le_refl _
  · split <;> omega

variable {i : ℕ}

/-- `image_end` is not below the end of any segment. -/
theorem segment_le_imageEnd {eh : Elf64Ehdr} (hi : i < eh.phnum) (hload : phType m eh i = ptLoad)
    (hwrap : phVaddr m eh i + phMemsz m eh i < 2 ^ 64) :
    phVaddr m eh i + phMemsz m eh i ≤ imageEndOf m eh := by
  have hmono : ∀ (l : List ℕ) (imageEnd : ℕ), imageEnd ≤ l.foldl (segmentEnd m eh) imageEnd := by
    intro l
    induction l with
    | nil => exact fun imageEnd => le_refl _
    | cons j l ih => exact fun imageEnd => le_trans (le_segmentEnd eh imageEnd j) (ih _)
  have hmem : ∀ (l : List ℕ) (imageEnd : ℕ), i ∈ l →
      phVaddr m eh i + phMemsz m eh i ≤ l.foldl (segmentEnd m eh) imageEnd := by
    intro l
    induction l with
    | nil => exact fun _ hin => absurd hin List.not_mem_nil
    | cons j l ih =>
      intro imageEnd hin
      rcases List.mem_cons.1 hin with rfl | hin
      · refine le_trans ?_ (hmono l _)
        rw [segmentEnd, if_neg (not_not.2 hload), u64_eq hwrap]
        split <;> omega
      · exact ih _ hin
  exact hmem _ 0 (by simpa using hi)

theorem mem_loads : i ∈ (List.range' 0 m.ehdr.phnum).filter
    (fun i => phType m m.ehdr i = ptLoad) ↔ i < m.ehdr.phnum ∧ phType m m.ehdr i = ptLoad := by
  simp

variable {rela n : ℕ} (h : WellFormedPie m rela n)

include h

theorem WellFormedPie.recognised : Recognised m := ⟨h.size, h.ident, h.machine, .inl h.type⟩

theorem WellFormedPie.header (hi : i < m.ehdr.phnum) : phdr m.ehdr i + 56 ≤ m.size := by
  have hphdrs := h.phdrs
  unfold phdr
  omega

theorem WellFormedPie.headerIn (hi : i < m.ehdr.phnum) : HeaderIn m m.ehdr i := by
  have hin := h.header hi
  exact ⟨by omega, fun _ => by omega⟩

theorem WellFormedPie.accepted : Accepted m := by
  rintro i hi ⟨hload, hgt⟩
  obtain ⟨-, hin, -⟩ := h.segments i (by simpa using hi) hload
  have hsize := m.size_le
  rw [u64_eq (by omega)] at hgt
  omega

theorem WellFormedPie.segmentIn (hi : i < m.ehdr.phnum) :
    SegmentIn m m.ehdr (imageEndOf m m.ehdr) i := by
  intro hload _
  obtain ⟨hfits, hin, hwrap⟩ := h.segments i hi hload
  have hsize := m.size_le
  have hend := segment_le_imageEnd hi hload hwrap
  right
  omega

theorem WellFormedPie.entry_lt : m.ehdr.entry < imageEndOf m m.ehdr := by
  obtain ⟨i, hi, hload, -, hlt⟩ := h.entry
  exact lt_of_lt_of_le hlt (segment_le_imageEnd hi hload (h.segments i hi hload).2.2)

theorem WellFormedPie.length_piece (hi : i < m.ehdr.phnum) (hload : phType m m.ehdr i = ptLoad) :
    (segmentPiece m m.ehdr i).cells.length = phFilesz m m.ehdr i :=
  length_segmentPiece (.inr (h.segments i hi hload).2.1)

variable {a : ℕ}

/-- The piece of a segment has the bytes that the segment has from the file. -/
theorem WellFormedPie.has_piece (hi : i < m.ehdr.phnum) (hload : phType m m.ehdr i = ptLoad) :
    (segmentPiece m m.ehdr i).Has a ↔ InSegment m i a := by
  rw [Piece.Has, h.length_piece hi hload, InSegment]
  simp [hi, hload, segmentPiece]

/-- The pieces of the segments share no address. -/
theorem WellFormedPie.pieces_apart :
    (segmentPieces m m.ehdr (List.range' 0 m.ehdr.phnum)).Pairwise Piece.Apart := by
  rw [segmentPieces, List.pairwise_map]
  have hsorted : ((List.range' 0 m.ehdr.phnum).filter
      fun i => phType m m.ehdr i = ptLoad).Pairwise (· < ·) :=
    List.Pairwise.filter _ (List.pairwise_lt_range' ..)
  refine hsorted.imp_of_mem fun {i j} hi hj hlt a hai haj => ?_
  obtain ⟨hi, hiload⟩ := mem_loads.1 hi
  obtain ⟨hj, hjload⟩ := mem_loads.1 hj
  obtain ⟨-, -, hi1, hi2⟩ := (h.has_piece hi hiload).1 hai
  obtain ⟨-, -, hj1, hj2⟩ := (h.has_piece hj hjload).1 haj
  have hisize := (h.segments i hi hiload).1
  have hjsize := (h.segments j hj hjload).1
  rcases h.apart i j hlt hj hiload hjload with hle | hle <;> omega

/-- A byte that a segment has from the file. -/
theorem WellFormedPie.segmentImage_in (hin : InSegment m i a) :
    m.bytes[phOffset m m.ehdr i + (a - phVaddr m m.ehdr i)]? = some (segmentImage m a) := by
  obtain ⟨hi, hload, hle, hlt⟩ := hin
  have hmem : segmentPiece m m.ehdr i ∈ segmentPieces m m.ehdr (List.range' 0 m.ehdr.phnum) :=
    List.mem_map_of_mem (mem_loads.2 ⟨hi, hload⟩)
  have hpaste := pasteAll_of_mem (f := fun _ => 0) h.pieces_apart hmem
    ((h.has_piece hi hload).2 ⟨hi, hload, hle, hlt⟩)
  rw [segmentPiece, List.getElem?_take_of_lt (by dsimp only; omega), List.getElem?_drop] at hpaste
  exact hpaste

/-- A byte that no segment has from the file. -/
theorem WellFormedPie.segmentImage_out (hout : ∀ i, ¬InSegment m i a) :
    segmentImage m a = 0 := by
  rw [segmentImage, pasteAll_of_forall_not]
  rintro p hp hhas
  obtain ⟨i, hi, rfl⟩ := List.mem_map.1 hp
  obtain ⟨hi, hload⟩ := mem_loads.1 hi
  exact hout i ((h.has_piece hi hload).1 hhas)

end Segments

/-! ## The table of the relocations -/

section Table

variable {m : BootModule} {off count : ℕ}

/-- The first header of the type, where all headers of the type have the same offset. -/
theorem offsetOfType_eq {entry : ℕ → ℕ} {typeAt code offsetAt num : ℕ}
    (hnamed : ∃ i < num, IsOfType m entry typeAt code i)
    (honly : ∀ i < num, IsOfType m entry typeAt code i → m.val (entry i + offsetAt) 8 = off) :
    offsetOfType m entry typeAt code offsetAt (List.range' 0 num) = some off := by
  rw [offsetOfType]
  cases hfind : (List.range' 0 num).find? fun i => decide (IsOfType m entry typeAt code i) with
  | none =>
    obtain ⟨i, hi, htype⟩ := hnamed
    rw [List.find?_eq_none] at hfind
    exact absurd (decide_eq_true htype) (hfind i (by simpa using hi))
  | some i =>
    have hi := List.mem_of_find?_eq_some hfind
    have htype : IsOfType m entry typeAt code i := by simpa using List.find?_some hfind
    rw [Option.map_some, honly i (by simpa using hi) htype]

theorem offsetOfType_none {entry : ℕ → ℕ} {typeAt code offsetAt num : ℕ}
    (hno : ∀ i < num, ¬IsOfType m entry typeAt code i) :
    offsetOfType m entry typeAt code offsetAt (List.range' 0 num) = none := by
  rw [offsetOfType, List.find?_eq_none.2, Option.map_none]
  intro i hi
  rw [decide_eq_true_eq]
  exact hno i (by simpa using hi)

/-- A pointer into the file is not `NULL`. -/
theorem pointer_inside (h : off < m.size) : m.pointer off = some off := by
  have habove := m.above
  have hinside := m.inside
  unfold BootModule.size at h
  rw [BootModule.pointer, u64_eq (by omega), if_neg (by omega)]

/-- The loop finds the dynamic table that the headers name. -/
theorem DynamicTable.dynamicOf_eq (hphdrs : m.ehdr.phoff + 56 * m.ehdr.phnum ≤ m.size)
    (h : DynamicTable m off count) : dynamicOf m m.ehdr = some off := by
  have hsize := m.size_le
  have hin := h.inside
  have hpointer : m.pointer off = some off := pointer_inside (by omega)
  have htype : ∀ i < m.ehdr.phnum, (IsOfType m (phdr m.ehdr) 0 ptDynamic i ↔
      phType m m.ehdr i = ptDynamic) := by
    intro i hi
    rw [IsOfType, Nat.add_zero, m.val_eq (by unfold phdr; omega)]
    rfl
  cases h.named with
  | segment named only =>
    obtain ⟨i, hi, hi'⟩ := named
    have hsegment : segmentDynamic m m.ehdr = some off :=
      offsetOfType_eq ⟨i, hi, (htype i hi).2 hi'⟩ fun j hj hj' => by
        rw [m.val_eq (by unfold phdr; omega)]
        exact only j hj ((htype j hj).1 hj')
    rw [dynamicOf, hsegment, Option.bind_some, hpointer]
  | sect segments shoff named only =>
    have hsegment : segmentDynamic m m.ehdr = none :=
      offsetOfType_none fun i hi htype' => segments i hi ((htype i hi).1 htype')
    obtain ⟨i, hi, hi'⟩ := named
    have hsection : sectionDynamic m m.ehdr = some off := offsetOfType_eq ⟨i, hi, hi'⟩ only
    rw [dynamicOf, hsegment, Option.bind_none]
    simp only
    rw [if_pos ⟨shoff, by omega⟩, hsection, Option.bind_some, hpointer]

theorem NamesNoDynamic.dynamicOf_eq (hphdrs : m.ehdr.phoff + 56 * m.ehdr.phnum ≤ m.size)
    (h : NamesNoDynamic m) : dynamicOf m m.ehdr = none := by
  have hsize := m.size_le
  have hsegment : segmentDynamic m m.ehdr = none := offsetOfType_none fun i hi htype => by
    rw [IsOfType, Nat.add_zero, m.val_eq (by unfold phdr; omega)] at htype
    exact h.1 i hi htype
  rw [dynamicOf, hsegment, Option.bind_none]
  simp only
  split
  · rename_i hsections
    have hsection : sectionDynamic m m.ehdr = none :=
      offsetOfType_none fun i hi htype => h.2 hsections.1 i hi htype
    rw [hsection, Option.bind_none]
  · rfl

variable {k : ℕ}

/-- The table ends inside the file, seen from any of its entries. -/
theorem DynamicTable.ends (h : DynamicTable m off count) (r : ℕ) (hk : k + r = count) :
    DynEnds m (off + 16 * k) := by
  have hin := h.inside
  induction r generalizing k with
  | zero =>
    obtain rfl : k = count := hk
    exact .null (by omega) h.null
  | succ r ih =>
    exact .entry (by omega) (h.tags k (by omega)) (fun _ => by omega) (ih (k := k + 1) (by omega))

/-- What the loop makes of the entries from `k` on. -/
theorem DynamicTable.dynTable_eq (h : DynamicTable m off count) (r : ℕ) {fuel : ℕ}
    (hk : k + r = count) (hfuel : r < fuel) (t : RelaTable) :
    dynTable m fuel (off + 16 * k) t =
      (List.range' k r).foldl (fun t j => dynEntry m (off + 16 * j) t) t := by
  induction r generalizing k fuel t with
  | zero =>
    obtain rfl : k = count := hk
    obtain ⟨fuel, rfl⟩ : ∃ f, fuel = f + 1 := ⟨fuel - 1, by omega⟩
    rw [dynTable, if_pos (show m.field (off + 16 * k) 8 = dtNull from h.null)]
    rfl
  | succ r ih =>
    obtain ⟨fuel, rfl⟩ : ∃ f, fuel = f + 1 := ⟨fuel - 1, by omega⟩
    have htag : m.field (off + 16 * k) 8 ≠ dtNull := h.tags k (by omega)
    rw [dynTable, if_neg htag, List.range'_succ, List.foldl_cons]
    exact ih (k := k + 1) (by omega) (by omega) _

variable {π : RelaTable → ℕ} {tag : ℕ}

/-- A member of the table that only the entries with one tag write. -/
theorem foldl_dynEntry {v : ℕ}
    (hentry : ∀ t dyn, π (dynEntry m dyn t) = if m.field dyn 8 = tag then m.field (dyn + 8) 8 else π t)
    (l : List ℕ) (honly : ∀ k ∈ l, dynTag m off k = tag → dynValue m off k = v) (t : RelaTable) :
    π (l.foldl (fun t j => dynEntry m (off + 16 * j) t) t) =
      if ∃ k ∈ l, dynTag m off k = tag then v else π t := by
  induction l using List.reverseRecOn generalizing t with
  | nil => simp
  | append_singleton l k ih =>
    rw [List.foldl_append, List.foldl_cons, List.foldl_nil, hentry,
      ih (fun j hj => honly j (List.mem_append_left _ hj))]
    by_cases htag : m.field (off + 16 * k) 8 = tag
    · rw [if_pos htag, if_pos ⟨k, List.mem_append_right _ (List.mem_singleton_self k), htag⟩]
      exact honly k (List.mem_append_right _ (List.mem_singleton_self k)) htag
    · rw [if_neg htag]
      refine if_congr ⟨?_, ?_⟩ rfl rfl
      · rintro ⟨j, hj, hj'⟩
        exact ⟨j, List.mem_append_left _ hj, hj'⟩
      · rintro ⟨j, hj, hj'⟩
        rcases List.mem_append.1 hj with hj | hj
        · exact ⟨j, hj, hj'⟩
        · obtain rfl := List.mem_singleton.1 hj
          exact absurd hj' htag

theorem rela_dynEntry (t : RelaTable) (dyn : ℕ) : (dynEntry m dyn t).rela =
    if m.field dyn 8 = dtRela then m.field (dyn + 8) 8 else t.rela := by
  unfold dynEntry
  split_ifs <;> rfl

theorem relasz_dynEntry (t : RelaTable) (dyn : ℕ) : (dynEntry m dyn t).relasz =
    if m.field dyn 8 = dtRelasz then m.field (dyn + 8) 8 else t.relasz := by
  unfold dynEntry
  split_ifs <;> simp_all [dtRela, dtRelasz]

theorem relaent_dynEntry (t : RelaTable) (dyn : ℕ) : (dynEntry m dyn t).relaent =
    if m.field dyn 8 = dtRelaent then m.field (dyn + 8) 8 else t.relaent := by
  unfold dynEntry
  split_ifs <;> simp_all [dtRela, dtRelasz, dtRelaent]

/-- The table that the dynamic table of the file says. -/
theorem DynamicTable.dynamicTable_eq (hphdrs : m.ehdr.phoff + 56 * m.ehdr.phnum ≤ m.size)
    (h : DynamicTable m off count) : dynamicTable m m.ehdr =
      (List.range' 0 count).foldl (fun t j => dynEntry m (off + 16 * j) t) ⟨0, 0, 24⟩ := by
  have hin := h.inside
  rw [dynamicTable, h.dynamicOf_eq hphdrs]
  exact h.dynTable_eq count (k := 0) (by omega) (by omega) _

/-- A member that the entries say, or that they leave alone. -/
theorem says_foldl {v : ℕ}
    (hentry : ∀ t dyn, π (dynEntry m dyn t) = if m.field dyn 8 = tag then m.field (dyn + 8) 8 else π t)
    (htold : Says m off count tag v) (t : RelaTable) :
    π ((List.range' 0 count).foldl (fun t j => dynEntry m (off + 16 * j) t) t) = v := by
  obtain ⟨⟨k, hk, htag⟩, honly⟩ := htold
  rw [foldl_dynEntry hentry _ (fun j hj => honly j (by simpa using hj)), if_pos]
  exact ⟨k, by simpa using hk, htag⟩

theorem silent_foldl
    (hentry : ∀ t dyn, π (dynEntry m dyn t) = if m.field dyn 8 = tag then m.field (dyn + 8) 8 else π t)
    (hsilent : ∀ k < count, dynTag m off k ≠ tag) (t : RelaTable) :
    π ((List.range' 0 count).foldl (fun t j => dynEntry m (off + 16 * j) t) t) = π t := by
  rw [foldl_dynEntry (v := 0) hentry _ fun j hj htag => absurd htag (hsilent j (by simpa using hj)),
    if_neg]
  rintro ⟨k, hk, htag⟩
  exact hsilent k (by simpa using hk) htag

/-- Without a table from the dynamic table the sections name none, either. -/
theorem count_eq_zero (hnone : (dynamicTable m m.ehdr).rela = 0 ∨ (dynamicTable m m.ehdr).relasz = 0)
    (hsections : NoRelaSections m) : (relaTable m m.ehdr).count = 0 := by
  have hzero : ∀ {t : RelaTable}, t.rela = 0 ∨ t.relasz = 0 → t.count = 0 := by
    rintro t ht
    rw [RelaTable.count, if_neg]
    rintro ⟨h1, h2, -⟩
    exact ht.elim h1 h2
  rw [relaTable]
  split
  · rename_i hasks
    rw [sectionTable]
    split
    · exact hzero hnone
    · rename_i i hfind
      have hi : i < m.ehdr.shnum := by simpa using List.mem_of_find?_eq_some hfind
      have hrela : RelaSection m m.ehdr i := by simpa using List.find?_some hfind
      exact hzero (.inl (hsections hasks.2.1 i hi hrela))
  · exact hzero hnone

variable {rela n : ℕ}

/-- **The loader finds the table** that a file lists, unless it is at address 0. -/
theorem Lists.relaTable_eq (hphdrs : m.ehdr.phoff + 56 * m.ehdr.phnum ≤ m.size)
    (h : Lists m rela n) (hrela : rela ≠ 0 ∨ n = 0) :
    (relaTable m m.ehdr).count = n ∧ (0 < n → (relaTable m m.ehdr).rela = rela) := by
  cases h with
  | @table off count n dynamic addr size entsize pos =>
    have htable := dynamic.dynamicTable_eq hphdrs
    have h1 : (dynamicTable m m.ehdr).rela = rela := by
      rw [htable]
      exact says_foldl rela_dynEntry addr _
    have h2 : (dynamicTable m m.ehdr).relasz = 24 * n := by
      rw [htable]
      exact says_foldl relasz_dynEntry size _
    have h3 : (dynamicTable m m.ehdr).relaent = 24 := by
      rw [htable]
      exact says_foldl relaent_dynEntry entsize _
    have hne := hrela.resolve_right (by omega)
    have hasks : ¬AsksSections m m.ehdr := by
      rintro ⟨hz | hz, -⟩
      · exact hne (h1.symm.trans hz)
      · omega
    rw [relaTable, if_neg hasks, RelaTable.count, h1, h2, h3]
    exact ⟨by rw [if_pos ⟨hne, by omega, by norm_num⟩]; omega, fun _ => rfl⟩
  | @empty off count dynamic none sections =>
    have htable := dynamic.dynamicTable_eq hphdrs
    refine ⟨count_eq_zero ?_ sections, fun hpos => absurd hpos (lt_irrefl 0)⟩
    rw [htable]
    rcases none with hno | hno | htold
    · exact .inl (silent_foldl rela_dynEntry hno _)
    · exact .inr (silent_foldl relasz_dynEntry hno _)
    · exact .inr (says_foldl relasz_dynEntry htold _)
  | static none sections =>
    refine ⟨count_eq_zero (.inl ?_) sections, fun hpos => absurd hpos (lt_irrefl 0)⟩
    rw [dynamicTable, none.dynamicOf_eq hphdrs]

/-- The fields of a program header are in the file. -/
theorem WellFormedPie.hasPh (h : WellFormedPie m rela n) {i width : ℕ} (hi : i < m.ehdr.phnum)
    (hk : k + width ≤ 56) : m.Has (phdr m.ehdr i + k) width := by
  have hin := h.header hi
  have hsize := m.size_le
  rw [m.has_iff (by omega)]
  omega

/-- The fields of a section header are in the file. -/
theorem WellFormedPie.hasSh (h : WellFormedPie m rela n) {i width : ℕ} (hshoff : m.ehdr.shoff ≠ 0)
    (hi : i < m.ehdr.shnum) (hk : k + width ≤ 64) :
    m.Has (shdr m.ehdr i + k) width := by
  have hin := h.shdrs hshoff
  have hsize := m.size_le
  rw [m.has_iff (by unfold shdr; omega)]
  unfold shdr
  omega

/-- What the search reads is in the file. -/
theorem WellFormedPie.tablesIn (h : WellFormedPie m rela n) : TablesIn m m.ehdr where
  dynamic := {
    segment := fun i hi _ => ⟨h.hasPh hi (by norm_num), fun _ => h.hasPh hi (by norm_num)⟩
    sections := fun _ hsections i hi _ =>
      ⟨h.hasSh hsections.1 hi (by norm_num), fun _ => h.hasSh hsections.1 hi (by norm_num)⟩ }
  ends dyn hdyn := by
    have hends : ∀ {off count : ℕ}, DynamicTable m off count → DynEnds m dyn := by
      intro off count hdynamic
      rw [hdynamic.dynamicOf_eq h.phdrs] at hdyn
      obtain rfl := Option.some.inj hdyn
      exact hdynamic.ends count (k := 0) (by omega)
    cases h.lists with
    | table dynamic => exact hends dynamic
    | empty dynamic => exact hends dynamic
    | static none =>
      rw [none.dynamicOf_eq h.phdrs] at hdyn
      cases hdyn
  sections hasks i hi _ := by
    have hshoff := hasks.2.1
    exact ⟨h.hasSh hshoff hi (by norm_num), fun _ => ⟨h.hasSh hshoff hi (by norm_num), fun _ =>
      ⟨h.hasSh hshoff hi (by norm_num), fun _ => h.hasSh hshoff hi (by norm_num),
        h.hasSh hshoff hi (by norm_num)⟩⟩⟩

end Table

/-! ## Relocating -/

section Relocating

variable {m : BootModule} {rela n : ℕ} (dest : ℕ)

/-- The bytes that a relocation writes. -/
def slotPiece (r : Elf64Rela) : Piece UInt8 := ⟨r.offset, leBytes 8 (dest + r.addend)⟩

variable (m rela) in
/-- The pieces of the first `k` relocations. -/
def slotPieces (k : ℕ) : List (Piece UInt8) :=
  ((List.range' 0 k).filter fun i => (fileRecord m rela i).type = rAArch64Relative).map
    fun i => slotPiece dest (fileRecord m rela i)

theorem slotPieces_succ (k : ℕ) : slotPieces m rela dest (k + 1) = slotPieces m rela dest k ++
    if (fileRecord m rela k).type = rAArch64Relative then [slotPiece dest (fileRecord m rela k)]
    else [] := by
  rw [slotPieces, slotPieces, List.range'_1_concat, Nat.zero_add, List.filter_append, List.map_append]
  by_cases htype : (fileRecord m rela k).type = rAArch64Relative
  · rw [if_pos htype, List.filter_cons_of_pos (by simpa using htype), List.filter_nil, List.map_cons,
      List.map_nil]
  · rw [if_neg htype, List.filter_cons_of_neg (by simpa using htype), List.filter_nil,
      List.map_nil]

theorem has_slotPiece {i a : ℕ} (htype : (fileRecord m rela i).type = rAArch64Relative) :
    (slotPiece dest (fileRecord m rela i)).Has a ↔ InSlot m rela i a := by
  rw [Piece.Has, slotPiece, length_leBytes, InSlot]
  simp [htype]

variable {k : ℕ}

theorem mem_slotPieces {p : Piece UInt8} (hp : p ∈ slotPieces m rela dest k) :
    ∃ i < k, (fileRecord m rela i).type = rAArch64Relative ∧ p = slotPiece dest (fileRecord m rela i) := by
  obtain ⟨i, hi, rfl⟩ := List.mem_map.1 hp
  rw [List.mem_filter] at hi
  exact ⟨i, by simpa using hi.1, by simpa using hi.2, rfl⟩

variable (h : WellFormedPie m rela n)

include h

/-- The slots leave the table alone. -/
theorem WellFormedPie.table_kept {a : ℕ} (hk : k ≤ n) (hle : rela ≤ a) (hlt : a < rela + 24 * n) :
    pasteAll (segmentImage m) (slotPieces m rela dest k) a = segmentImage m a := by
  refine pasteAll_of_forall_not fun p hp hhas => ?_
  obtain ⟨i, hi, htype, rfl⟩ := mem_slotPieces dest hp
  have hslot := (h.slots i (by omega) a ((has_slotPiece dest htype).1 hhas)).2.1
  omega

/-- Relocations off their table are read as they are in the file. -/
theorem WellFormedPie.record_kept (hk : k < n) :
    recordAt (pasteAll (segmentImage m) (slotPieces m rela dest k)) rela k = fileRecord m rela k := by
  have hend := imageEndOf_lt m m.ehdr
  have hin := h.records.1
  have hval : ∀ j, j + 8 ≤ 24 →
      imageVal (pasteAll (segmentImage m) (slotPieces m rela dest k)) (rela + 24 * k + j) 8 =
        imageVal (segmentImage m) (rela + 24 * k + j) 8 := by
    intro j hj
    rw [imageVal, imageVal, u64_eq (by omega), window_congr]
    intro b hb
    exact h.table_kept dest (by omega) (by omega) (by omega)
  have h0 := hval 0 (by norm_num)
  have h8 := hval 8 (by norm_num)
  have h16 := hval 16 (by norm_num)
  rw [fileRecord, recordAt, recordAt, h8, h16]
  rw [Nat.add_zero] at h0
  rw [h0]

/-- **Relocations off their table** are pieces laid over the segments. -/
theorem WellFormedPie.relocated_eq (hk : k ≤ n) :
    relocated dest rela (segmentImage m) k =
      pasteAll (segmentImage m) (slotPieces m rela dest k) := by
  induction k with
  | zero => rfl
  | succ k ih =>
    rw [relocated, ih (by omega), h.record_kept dest hk, slotPieces_succ, pasteAll_append, applyRecord]
    by_cases htype : (fileRecord m rela k).type = rAArch64Relative
    · rw [if_pos htype, if_pos htype, pasteAll_cons, pasteAll_nil, slotPiece]
    · rw [if_neg htype, if_neg htype, pasteAll_nil]

theorem WellFormedPie.recordOf_eq (hk : k < n) :
    recordOf dest rela (segmentImage m) k = fileRecord m rela k := by
  rw [recordOf, h.relocated_eq dest (le_of_lt hk), h.record_kept dest hk]

/-- The image has the relocations and their slots. -/
theorem WellFormedPie.recordIn (hk : k < n) :
    RecordIn dest rela (imageEndOf m m.ehdr) (segmentImage m) k := by
  have hend := imageEndOf_lt m m.ehdr
  have hin := h.records.1
  rw [RecordIn, h.recordOf_eq dest hk, u64_eq (by omega), u64_eq (by omega), u64_eq (by omega)]
  refine ⟨by omega, fun htype => ⟨by omega, by omega, ?_⟩⟩
  have hlast := (h.slots k hk ((fileRecord m rela k).offset + 7) ⟨htype, by omega, by omega⟩).1
  omega

/-- The slots share no address. -/
theorem WellFormedPie.slots_apart : (slotPieces m rela dest n).Pairwise Piece.Apart := by
  rw [slotPieces, List.pairwise_map]
  have hsorted : ((List.range' 0 n).filter
      fun i => (fileRecord m rela i).type = rAArch64Relative).Pairwise (· < ·) :=
    List.Pairwise.filter _ (List.pairwise_lt_range' ..)
  refine hsorted.imp_of_mem fun {i j} hi hj hlt a hai haj => ?_
  rw [List.mem_filter] at hi hj
  have hin : i < n := by simpa using hi.1
  have hjn : j < n := by simpa using hj.1
  have hsame := (h.slots i hin a ((has_slotPiece dest (by simpa using hi.2)).1 hai)).2.2 j hjn
    ((has_slotPiece dest (by simpa using hj.2)).1 haj)
  omega

omit h in
theorem leNat_leBytes (v : ℕ) : leNat (leBytes 8 v) = u64 v := by
  have hdigit : ∀ k, (UInt8.ofNat (v / 256 ^ k)).toNat = v / 256 ^ k % 256 := fun k => UInt8.toNat_ofNat'
  simp only [leNat, leBytes, u64, List.map_map, Function.comp_def, hdigit]
  simp only [List.range, List.range.loop, List.map_cons, List.map_nil, Nat.ofDigits_cons,
    Nat.ofDigits_nil]
  omega

/-- **The image** that the relocations leave. -/
theorem WellFormedPie.relocates :
    Relocates m rela n dest (relocated dest rela (segmentImage m) n) := by
  rw [h.relocated_eq dest (le_refl n)]
  have hout : ∀ a, (∀ k < n, ¬InSlot m rela k a) →
      pasteAll (segmentImage m) (slotPieces m rela dest n) a = segmentImage m a := by
    intro a hno
    refine pasteAll_of_forall_not fun p hp hhas => ?_
    obtain ⟨i, hi, htype, rfl⟩ := mem_slotPieces dest hp
    exact hno i hi ((has_slotPiece dest htype).1 hhas)
  refine ⟨fun k hk htype => ?_, fun i a hin hno => ?_, fun a hseg hno => ?_⟩
  · have hmem : slotPiece dest (fileRecord m rela k) ∈ slotPieces m rela dest n :=
      List.mem_map_of_mem (List.mem_filter.2 ⟨by simpa using hk, by simpa using htype⟩)
    have hwindow : window (pasteAll (segmentImage m) (slotPieces m rela dest n))
        (fileRecord m rela k).offset 8 = leBytes 8 (dest + (fileRecord m rela k).addend) := by
      have hcells := length_leBytes 8 (dest + (fileRecord m rela k).addend)
      have hread := @window_eq _ (pasteAll (segmentImage m) (slotPieces m rela dest n))
        (fileRecord m rela k).offset (leBytes 8 (dest + (fileRecord m rela k).addend))
        fun j hj => ?_
      · rwa [hcells] at hread
      · have hhas := (has_slotPiece dest htype).2
          (⟨htype, by omega, by omega⟩ : InSlot m rela k ((fileRecord m rela k).offset + j))
        have hpaste := pasteAll_of_mem (f := segmentImage m) (h.slots_apart dest) hmem hhas
        rw [slotPiece, Nat.add_sub_cancel_left] at hpaste
        exact hpaste
    rw [hwindow, leNat_leBytes]
  · rw [hout a hno]
    exact h.segmentImage_in hin
  · rw [hout a hno]
    exact h.segmentImage_out hseg

end Relocating

/-! ## Loading -/

/-- **A well-formed file is loaded as it describes itself**, wherever there is memory for it, unless
its relocation table is at address 0. -/
theorem load_kernel_elf_correct {m : BootModule} {rela n : ℕ} (h : WellFormedPie m rela n)
    (hrela : rela ≠ 0 ∨ n = 0) {hhdm dest size : ℕ} {entries : List LimineMemmapEntry}
    (halloc : allocDest hhdm entries (imageEndOf m m.ehdr) = some (dest, size))
    (hroom : imageEndOf m m.ehdr ≤ size) :
    ∃ image, loadKernelElf hhdm entries m =
        .ok (some ⟨dest, imageEndOf m m.ehdr, image, u64 (dest + m.ehdr.entry)⟩) ∧
      Relocates m rela n dest image := by
  obtain ⟨hcount, haddr⟩ := h.lists.relaTable_eq h.phdrs hrela
  have hne : imageEndOf m m.ehdr ≠ 0 := by
    have hentry := h.entry_lt
    omega
  have hcovered : ImageCovered m dest := {
    room := (allocDest_room hhdm entries (imageEndOf_lt m m.ehdr) halloc).1 hroom
    segments := fun i hi _ => h.segmentIn hi
    tables := fun _ => h.tablesIn
    records := fun _ i hi _ => by
      rw [hcount] at hi
      rw [haddr (by omega)]
      exact h.recordIn dest hi }
  have htouched : Touched hhdm entries m := by
    refine fun _ => ⟨fun i hi => h.headerIn (by simpa using hi), fun _ dest' size' halloc' => ?_⟩
    obtain ⟨rfl, -⟩ := Prod.mk.inj (Option.some.inj (halloc.symm.trans halloc'))
    exact hcovered
  have hrelocatable : Relocatable m dest := by
    intro i hi
    have hi : i < n := by
      rw [hcount] at hi
      simpa using hi
    rw [haddr (by omega), h.recordOf_eq dest hi]
    exact h.records.2 i hi
  have hkernel := (kernelOf_eq_some hhdm entries m).2
    ⟨h.recognised, hne, dest, size, halloc, h.accepted, hrelocatable, rfl⟩
  refine ⟨_, ((loadKernelElf_exactly hhdm entries m).ok htouched).trans (congrArg _ hkernel), ?_⟩
  rw [hcount]
  rcases Nat.eq_zero_or_pos n with rfl | hpos
  · exact h.relocates dest
  · rw [haddr hpos]
    exact h.relocates dest

/-! ## A file with one relocation -/

/-- A kernel with one segment, at `base`: a relocation table with one entry, its slot, and the dynamic
table. -/
def tinyPie (base : ℕ) : BootModule where
  address := 0x100000
  bytes := elfMag ++ [2, 1, 1] ++ List.replicate 9 0 ++ leBytes 2 etDyn ++ leBytes 2 emAArch64 ++
    leBytes 4 1 ++ leBytes 8 (base + 24) ++ leBytes 8 64 ++ leBytes 8 0 ++ leBytes 4 0 ++
    leBytes 2 64 ++ leBytes 2 56 ++ leBytes 2 2 ++ leBytes 2 64 ++ leBytes 2 0 ++ leBytes 2 0 ++
    leBytes 4 ptLoad ++ leBytes 4 7 ++ leBytes 8 176 ++ leBytes 8 base ++ leBytes 8 base ++
    leBytes 8 96 ++ leBytes 8 104 ++ leBytes 8 16 ++
    leBytes 4 ptDynamic ++ leBytes 4 6 ++ leBytes 8 208 ++ leBytes 8 (base + 32) ++
    leBytes 8 (base + 32) ++ leBytes 8 64 ++ leBytes 8 64 ++ leBytes 8 8 ++
    leBytes 8 (base + 24) ++ leBytes 8 rAArch64Relative ++ leBytes 8 16 ++ leBytes 8 0 ++
    leBytes 8 dtRela ++ leBytes 8 base ++ leBytes 8 dtRelasz ++ leBytes 8 24 ++
    leBytes 8 dtRelaent ++ leBytes 8 24 ++ leBytes 8 dtNull ++ leBytes 8 0
  above := by norm_num
  inside := by simp [elfMag, length_leBytes]

theorem tinyPie_lists {base : ℕ} (hbase : base = 0 ∨ base = 4096) : Lists (tinyPie base) base 1 := by
  have hdynamic : DynamicTable (tinyPie base) 208 3 := by
    refine ⟨.segment ?_ ?_, ?_, ?_, ?_⟩ <;> rcases hbase with rfl | rfl <;> decide +kernel
  refine .table hdynamic ⟨?_, ?_⟩ ⟨?_, ?_⟩ ⟨?_, ?_⟩ one_pos <;> rcases hbase with rfl | rfl <;>
    decide +kernel

theorem tinyPie_wellFormed {base : ℕ} (hbase : base = 0 ∨ base = 4096) :
    WellFormedPie (tinyPie base) base 1 := by
  have hend : imageEndOf (tinyPie base) (tinyPie base).ehdr = base + 104 := by
    rcases hbase with rfl | rfl <;> decide +kernel
  have hrecord : (fileRecord (tinyPie base) base 0).offset = base + 24 := by
    rcases hbase with rfl | rfl <;> decide +kernel
  have hsegments : ∀ j, 1 ≤ j → j < (tinyPie base).ehdr.phnum →
      phType (tinyPie base) (tinyPie base).ehdr j ≠ ptLoad := by
    intro j h1 h2
    rw [show (tinyPie base).ehdr.phnum = 2 by rcases hbase with rfl | rfl <;> decide +kernel] at h2
    obtain rfl : j = 1 := by omega
    rcases hbase with rfl | rfl <;> decide +kernel
  have hrest : (sizeofElf64Ehdr ≤ (tinyPie base).size ∧ (tinyPie base).ehdr.ident = elfMag ∧
      (tinyPie base).ehdr.machine = emAArch64 ∧ (tinyPie base).ehdr.type = etDyn) ∧
      ((tinyPie base).ehdr.phoff + 56 * (tinyPie base).ehdr.phnum ≤ (tinyPie base).size ∧
      ((tinyPie base).ehdr.shoff ≠ 0 →
        (tinyPie base).ehdr.shoff + 64 * (tinyPie base).ehdr.shnum ≤ (tinyPie base).size)) := by
    rcases hbase with rfl | rfl <;> decide +kernel
  refine ⟨hrest.1.1, hrest.1.2.1, hrest.1.2.2.1, hrest.1.2.2.2, hrest.2.1, hrest.2.2, ?_, ?_, ?_,
    tinyPie_lists hbase, ⟨by omega, ?_⟩, ?_⟩
  · rcases hbase with rfl | rfl <;> decide +kernel
  · exact fun i j hij hj _ hload => absurd hload (hsegments j (by omega) hj)
  · rcases hbase with rfl | rfl <;> decide +kernel
  · rcases hbase with rfl | rfl <;> decide +kernel
  · intro k hk a hslot
    obtain rfl : k = 0 := by omega
    obtain ⟨-, hle, hlt⟩ := hslot
    rw [hrecord] at hle hlt
    exact ⟨by omega, by omega, fun j hj _ => by omega⟩

/-- Memory for the small kernels. -/
def oneRegion : List LimineMemmapEntry := [⟨0x400000, 0x100000, .usable⟩]

/-- **A well-formed file that is loaded.** -/
theorem load_kernel_elf_correct_tinyPie :
    ∃ image, loadKernelElf 0 oneRegion (tinyPie 4096) =
        .ok (some ⟨0x400000, imageEndOf (tinyPie 4096) (tinyPie 4096).ehdr, image,
          u64 (0x400000 + (tinyPie 4096).ehdr.entry)⟩) ∧
      Relocates (tinyPie 4096) 4096 1 0x400000 image :=
  load_kernel_elf_correct (tinyPie_wellFormed (.inr rfl)) (.inl (by norm_num))
    (show allocDest 0 oneRegion _ = some (0x400000, 0x10000) by decide +kernel) (by decide +kernel)

/-- **A relocation table at address 0** is passed over: the loader returns the kernel, and its slot is
not relocated. -/
theorem table_at_zero_skipped :
    WellFormedPie (tinyPie 0) 0 1 ∧ ∃ l, loadKernelElf 0 oneRegion (tinyPie 0) = .ok (some l) ∧
      l.dest = 0x400000 ∧ ¬Relocates (tinyPie 0) 0 1 0x400000 l.image := by
  refine ⟨tinyPie_wellFormed (.inl rfl), ?_⟩
  have hrun : (loadKernelElf 0 oneRegion (tinyPie 0)).toOption.join.any (fun l =>
      decide (l.dest = 0x400000 ∧ leNat (window l.image 24 8) = 0)) = true := by decide +kernel
  have hload : ∃ l, loadKernelElf 0 oneRegion (tinyPie 0) = .ok (some l) ∧
      l.dest = 0x400000 ∧ leNat (window l.image 24 8) = 0 := by
    rcases hr : loadKernelElf 0 oneRegion (tinyPie 0) with e | _ | l
    · rw [hr] at hrun
      cases hrun
    · rw [hr] at hrun
      cases hrun
    · rw [hr] at hrun
      exact ⟨l, rfl, of_decide_eq_true hrun⟩
  obtain ⟨l, hl, hdest, hslot⟩ := hload
  refine ⟨l, hl, hdest, fun hrel => ?_⟩
  have hrecord : (fileRecord (tinyPie 0) 0 0).type = rAArch64Relative ∧
      (fileRecord (tinyPie 0) 0 0).offset = 24 ∧ (fileRecord (tinyPie 0) 0 0).addend = 16 := by
    decide +kernel
  have hread := hrel.slot 0 one_pos hrecord.1
  rw [hrecord.2.1, hrecord.2.2, hslot] at hread
  exact absurd hread (by decide)

end ZealBringup.Boot
