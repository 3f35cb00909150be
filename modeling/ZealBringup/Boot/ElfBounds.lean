import ZealBringup.Boot.Elf
import ZealBringup.Boot.Reserve

/-!
# Which modules the ELF loader loads within bounds

The conditions are about the fields of the file.  Each loop of the loader has one, and a rule
that says what the loop returns under it.

* `HeaderIn`, `SegmentIn`, `DynEnds`, `SectionIn`, `RecordIn` — the conditions of the loops.
* `ModuleCovered` — the condition of the loader.
* `load_kernel_elf_safe_iff` — the loader stays within bounds exactly under it.
-/

namespace ZealBringup.Boot

open Overlay Checked

/-! ## Reading -/

theorem leNat_lt (bytes : List UInt8) : leNat bytes < 256 ^ bytes.length := by
  have h := Nat.ofDigits_lt_base_pow_length (b := 256) (l := bytes.map UInt8.toNat) (by norm_num)
    fun x hx => by
      obtain ⟨byte, -, rfl⟩ := List.mem_map.1 hx
      exact byte.toNat_lt
  rwa [List.length_map] at h

namespace BootModule

variable (m : BootModule)

theorem size_le : m.size + 4096 ≤ 2 ^ 64 := by
  have h1 := m.above
  have h2 := m.inside
  unfold size
  omega

theorem field_lt (off width : ℕ) : m.field off width < 256 ^ width :=
  lt_of_lt_of_le (leNat_lt _) (Nat.pow_le_pow_right (by norm_num) (by
    rw [List.length_take]
    exact min_le_left _ _))

theorem field_lt_64 (off : ℕ) : m.field off 8 < 2 ^ 64 := m.field_lt off 8

/-- The bytes that a pointer reaches are in the file. -/
def Has (off width : ℕ) : Prop := u64 off + width ≤ m.size

/-- The number that a pointer reaches. -/
def val (off width : ℕ) : ℕ := m.field (u64 off) width

/-- A read through any pointer. -/
theorem read_any (off width : ℕ) :
    Exactly (m.read off width) (m.Has off width) (m.val off width) where
  ok hin := if_pos hin
  error hout := ⟨_, if_neg hout⟩

variable {off width : ℕ}

theorem has_iff (h : off < 2 ^ 64) : m.Has off width ↔ off + width ≤ m.size := by
  rw [Has, u64_eq h]

theorem val_eq (h : off < 2 ^ 64) : m.val off width = m.field off width := by
  rw [val, u64_eq h]

/-- A read succeeds where the bytes are in the file. -/
theorem read_exactly (h : off < 2 ^ 64) :
    Exactly (m.read off width) (off + width ≤ m.size) (m.field off width) :=
  (m.read_any off width).congr (m.has_iff h) fun _ => m.val_eq h

theorem readBytes_exactly (off n : ℕ) :
    Exactly (m.readBytes off n) (n = 0 ∨ off + n ≤ m.size) ((m.bytes.drop off).take n) where
  ok hin := if_pos hin
  error hout := ⟨_, if_neg hout⟩

end BootModule

/-- The number that a pointer into the image reaches. -/
def imageVal (image : ℕ → UInt8) (off width : ℕ) : ℕ := leNat (window image (u64 off) width)

theorem imageRead_exactly (size : ℕ) (image : ℕ → UInt8) (off width : ℕ) :
    Exactly (imageRead size image off width) (u64 off + width ≤ size)
      (imageVal image off width) where
  ok hin := if_pos hin
  error hout := ⟨_, if_neg hout⟩

theorem imageWrite_exactly (size : ℕ) (image : ℕ → UInt8) (off : ℕ) (data : List UInt8) :
    Exactly (imageWrite size image off data) (data.length = 0 ∨ off + data.length ≤ size)
      (paste image ⟨off, data⟩) where
  ok hin := if_pos hin
  error hout := ⟨_, if_neg hout⟩

/-! ## The fields of the file -/

section Fields

variable (m : BootModule) (eh : Elf64Ehdr)

/-- `ph[i].p_type`. -/
def phType (i : ℕ) : ℕ := m.field (phdr eh i) 4

/-- `ph[i].p_offset`. -/
def phOffset (i : ℕ) : ℕ := m.field (phdr eh i + 8) 8

/-- `ph[i].p_vaddr`. -/
def phVaddr (i : ℕ) : ℕ := m.field (phdr eh i + 16) 8

/-- `ph[i].p_filesz`. -/
def phFilesz (i : ℕ) : ℕ := m.field (phdr eh i + 32) 8

/-- `ph[i].p_memsz`. -/
def phMemsz (i : ℕ) : ℕ := m.field (phdr eh i + 40) 8

/-- The file has what the loader reads of a program header in its first pass: the type, and the
addresses and sizes of a segment. -/
def HeaderIn (i : ℕ) : Prop :=
  phdr eh i + 4 ≤ m.size ∧ (phType m eh i = ptLoad → phdr eh i + 48 ≤ m.size)

/-- `image_end` with one header more. -/
def segmentEnd (imageEnd i : ℕ) : ℕ :=
  if phType m eh i ≠ ptLoad then imageEnd
  else if u64 (phVaddr m eh i + phMemsz m eh i) > imageEnd then
    u64 (phVaddr m eh i + phMemsz m eh i)
  else imageEnd

/-- `image_end`: the highest end of a segment, as a 64-bit sum. -/
def imageEndOf : ℕ := (List.range' 0 eh.phnum).foldl (segmentEnd m eh) 0

variable {m eh}

theorem phdr_succ (i : ℕ) : phdr eh (i + 1) = phdr eh i + 56 := by
  unfold phdr
  omega

variable {i : ℕ}

theorem read_phType (hi : phdr eh i < 2 ^ 64) :
    Exactly (m.read (phdr eh i) 4) (phdr eh i + 4 ≤ m.size) (phType m eh i) := m.read_exactly hi

/-- A field of a header whose type is in the file. -/
theorem read_phField (hin : phdr eh i + 4 ≤ m.size) {k : ℕ} (hk : k ≤ 48) :
    Exactly (m.read (phdr eh i + k) 8) (phdr eh i + k + 8 ≤ m.size)
      (m.field (phdr eh i + k) 8) := by
  have hsize := m.size_le
  exact m.read_exactly (by omega)

theorem imageEndLoop_exactly (left : ℕ) (hi : phdr eh i < 2 ^ 64) (imageEnd : ℕ) :
    Exactly (imageEndLoop m eh left i imageEnd) (∀ j ∈ List.range' i left, HeaderIn m eh j)
      ((List.range' i left).foldl (segmentEnd m eh) imageEnd) := by
  induction left generalizing i imageEnd with
  | zero => exact (Exactly.pure imageEnd).congr (by simp) fun _ => rfl
  | succ left ih =>
    have hsize := m.size_le
    rw [imageEndLoop, List.range'_succ, List.foldl_cons, List.forall_mem_cons, HeaderIn, and_assoc]
    refine (read_phType hi).bind fun hin => ?_
    have hnext : phdr eh (i + 1) < 2 ^ 64 := by
      rw [phdr_succ]
      omega
    refine Exactly.ite (fun hother => ?_) fun hload => ?_
    · rw [segmentEnd, if_pos hother]
      exact (ih hnext imageEnd).congr (by simp [hother]) fun _ => rfl
    · have hload' := not_not.1 hload
      rw [segmentEnd, if_neg hload]
      refine Exactly.congr ((read_phField hin (show 16 ≤ 48 by norm_num)).bind fun _ =>
        (read_phField hin (show 40 ≤ 48 by norm_num)).bind fun _ => ih hnext _) ?_ fun _ => rfl
      rw [← and_assoc]
      refine and_congr_left' ⟨fun hboth _ => ?_, fun hin48 => ?_⟩
      · omega
      · have := hin48 hload'
        omega

/-! ## Copying the segments -/

variable (m eh)

/-- The loader refuses the segment: its end in the file, as a 64-bit sum, is past the end of file. -/
def Refused (i : ℕ) : Prop :=
  phType m eh i = ptLoad ∧ u64 (phOffset m eh i + phFilesz m eh i) > m.size

instance (i : ℕ) : Decidable (Refused m eh i) := inferInstanceAs (Decidable (_ ∧ _))

/-- A segment that is not refused may be copied: it is empty, or the sum does not wrap and the
segment fits into an image of `size` bytes. -/
def SegmentIn (size i : ℕ) : Prop :=
  phType m eh i = ptLoad → ¬Refused m eh i → phFilesz m eh i = 0 ∨
    phOffset m eh i + phFilesz m eh i < 2 ^ 64 ∧ phVaddr m eh i + phFilesz m eh i ≤ size

/-- The bytes of a segment, at their place in the image. -/
def segmentPiece (i : ℕ) : Piece UInt8 :=
  ⟨phVaddr m eh i, (m.bytes.drop (phOffset m eh i)).take (phFilesz m eh i)⟩

/-- The pieces of the segments among some headers. -/
def segmentPieces (l : List ℕ) : List (Piece UInt8) :=
  (l.filter fun i => phType m eh i = ptLoad).map (segmentPiece m eh)

/-- The image with the segments among some headers, unless one of them is refused. -/
def copiedOver (image : ℕ → UInt8) (l : List ℕ) : Option (ℕ → UInt8) :=
  if ∀ i ∈ l, ¬Refused m eh i then some (pasteAll image (segmentPieces m eh l)) else none

variable {m eh}

theorem copiedOver_cons_of_other {image : ℕ → UInt8} (l : List ℕ) (h : phType m eh i ≠ ptLoad) :
    copiedOver m eh image (i :: l) = copiedOver m eh image l := by
  have hno : ¬Refused m eh i := fun hr => h hr.1
  rw [copiedOver, copiedOver, segmentPieces, segmentPieces,
    List.filter_cons_of_neg (by simpa using h)]
  simp only [List.forall_mem_cons, hno, not_false_eq_true, true_and]

theorem copiedOver_cons_of_load {image : ℕ → UInt8} (l : List ℕ) (h : phType m eh i = ptLoad)
    (hno : ¬Refused m eh i) :
    copiedOver m eh image (i :: l) =
      copiedOver m eh (paste image (segmentPiece m eh i)) l := by
  rw [copiedOver, copiedOver, segmentPieces, segmentPieces,
    List.filter_cons_of_pos (by simpa using h), List.map_cons, pasteAll_cons]
  simp only [List.forall_mem_cons, hno, not_false_eq_true, true_and]

theorem length_segmentPiece (h : phFilesz m eh i = 0 ∨ phOffset m eh i + phFilesz m eh i ≤ m.size) :
    (segmentPiece m eh i).cells.length = phFilesz m eh i := by
  unfold BootModule.size at h
  rw [segmentPiece, List.length_take, List.length_drop]
  omega

/-- Copying one segment that is not refused. -/
theorem copySegment_exactly {size : ℕ} (image : ℕ → UInt8) (hno : ¬Refused m eh i)
    (hload : phType m eh i = ptLoad) {β : Type} {f : (ℕ → UInt8) → Except Fault β} {P : Prop}
    {b : β} (hf : Exactly (f (paste image (segmentPiece m eh i))) P b) :
    Exactly (do
      let data ← m.readBytes (phOffset m eh i) (phFilesz m eh i)
      let image ← imageWrite size image (phVaddr m eh i) data
      f image) (SegmentIn m eh size i ∧ P) b := by
  refine Exactly.congr ((m.readBytes_exactly _ _).bind fun hin =>
    (imageWrite_exactly size image _ _).bind fun _ => hf) ?_ fun _ => rfl
  rw [← and_assoc]
  refine and_congr_left' ?_
  have hsum : u64 (phOffset m eh i + phFilesz m eh i) ≤ m.size := by
    by_contra hgt
    exact hno ⟨hload, by omega⟩
  have hsize := m.size_le
  constructor
  · rintro ⟨hin, hfits⟩ - -
    rw [show ((m.bytes.drop (phOffset m eh i)).take (phFilesz m eh i)).length = phFilesz m eh i from
      length_segmentPiece hin] at hfits
    omega
  · intro hseg
    have hcase := hseg hload hno
    have hin : phFilesz m eh i = 0 ∨ phOffset m eh i + phFilesz m eh i ≤ m.size := by
      rcases hcase with h0 | ⟨hwrap, -⟩
      · exact Or.inl h0
      · rw [u64_eq hwrap] at hsum
        exact Or.inr hsum
    refine ⟨hin, ?_⟩
    rw [show ((m.bytes.drop (phOffset m eh i)).take (phFilesz m eh i)).length = phFilesz m eh i from
      length_segmentPiece hin]
    omega

theorem copyLoop_exactly {size left : ℕ} (hin : ∀ j ∈ List.range' i left, HeaderIn m eh j)
    (image : ℕ → UInt8) :
    Exactly (copyLoop m eh size left i image)
      (Upto (Refused m eh) (SegmentIn m eh size) (List.range' i left))
      (copiedOver m eh image (List.range' i left)) := by
  induction left generalizing i image with
  | zero => exact Exactly.pure _
  | succ left ih =>
    have hsize := m.size_le
    rw [List.range'_succ, List.forall_mem_cons] at hin
    obtain ⟨⟨htype, hsegment⟩, hrest⟩ := hin
    rw [copyLoop, List.range'_succ, Upto,
      (read_phType (show phdr eh i < 2 ^ 64 by omega)).ok htype]
    show Exactly (if phType m eh i ≠ ptLoad then _ else _) _ _
    refine Exactly.ite (fun hother => ?_) fun hload => ?_
    · rw [copiedOver_cons_of_other _ hother]
      refine (ih hrest image).congr ?_ fun _ => rfl
      have hseg : SegmentIn m eh size i := fun hload => absurd hload hother
      have hno : ¬Refused m eh i := fun hr => hother hr.1
      simp [hseg, hno]
    · have hload' := not_not.1 hload
      have h48 := hsegment hload'
      rw [(read_phField htype (show 8 ≤ 48 by norm_num)).ok (by omega),
        show ∀ g : ℕ → Except Fault (Option (ℕ → UInt8)),
          (Except.ok (m.field (phdr eh i + 8) 8) >>= g) = g (phOffset m eh i) from fun _ => rfl,
        (read_phField htype (show 32 ≤ 48 by norm_num)).ok (by omega),
        show ∀ g : ℕ → Except Fault (Option (ℕ → UInt8)),
          (Except.ok (m.field (phdr eh i + 32) 8) >>= g) = g (phFilesz m eh i) from fun _ => rfl]
      by_cases hr : Refused m eh i
      · rw [if_pos hr.2]
        refine (Exactly.pure none).congr ?_ fun _ => ?_
        · refine iff_of_true trivial ⟨fun _ hno => absurd hr hno, fun hno => absurd hr hno⟩
        · rw [copiedOver, if_neg fun hall => hall i List.mem_cons_self hr]
      · have hnot : ¬u64 (phOffset m eh i + phFilesz m eh i) > m.size := fun hgt => hr ⟨hload', hgt⟩
        rw [if_neg hnot, copiedOver_cons_of_load _ hload' hr,
          (read_phField htype (show 16 ≤ 48 by norm_num)).ok (by omega)]
        refine (copySegment_exactly image hr hload' (ih hrest _)).congr ?_ fun _ => rfl
        simp [hr]

/-! ## The dynamic table -/

section FirstOffset

variable (m) (entry : ℕ → ℕ) (typeAt code offsetAt : ℕ)

/-- The header has the type that is looked for. -/
def IsOfType (i : ℕ) : Prop := m.val (entry i + typeAt) 4 = code

instance (i : ℕ) : Decidable (IsOfType m entry typeAt code i) := inferInstanceAs (Decidable (_ = _))

/-- The file has the type of a header, and its offset if it is the one looked for. -/
def OffsetIn (i : ℕ) : Prop :=
  m.Has (entry i + typeAt) 4 ∧
    (IsOfType m entry typeAt code i → m.Has (entry i + offsetAt) 8)

/-- The offset of the first header of the type. -/
def offsetOfType (l : List ℕ) : Option ℕ :=
  (l.find? fun i => IsOfType m entry typeAt code i).map fun i => m.val (entry i + offsetAt) 8

theorem firstOffset_exactly (left i : ℕ) :
    Exactly (firstOffset m entry typeAt code offsetAt left i)
      (Upto (IsOfType m entry typeAt code) (OffsetIn m entry typeAt code offsetAt)
        (List.range' i left))
      (offsetOfType m entry typeAt code offsetAt (List.range' i left)) := by
  induction left generalizing i with
  | zero => exact Exactly.pure _
  | succ left ih =>
    rw [firstOffset, List.range'_succ, Upto, OffsetIn, and_assoc, offsetOfType, List.find?_cons]
    refine (m.read_any _ _).bind fun hin => Exactly.ite (fun htype => ?_) fun hother => ?_
    · have hfound : IsOfType m entry typeAt code i := htype
      rw [decide_eq_true hfound]
      refine Exactly.congr ((m.read_any _ _).bind fun _ => Exactly.pure _) ?_ fun _ => rfl
      simp [hfound]
    · have hno : ¬IsOfType m entry typeAt code i := hother
      rw [decide_eq_false hno]
      exact (ih (i + 1)).congr (by simp [hno]) fun _ => rfl

end FirstOffset

variable (m eh)

/-- The offset of the dynamic table that the program headers name. -/
def segmentDynamic : Option ℕ := offsetOfType m (phdr eh) 0 ptDynamic 8 (List.range' 0 eh.phnum)

/-- The offset of the dynamic table that the section headers name. -/
def sectionDynamic : Option ℕ := offsetOfType m (shdr eh) 4 shtDynamic 24 (List.range' 0 eh.shnum)

/-- The offset of the dynamic table. -/
def dynamicOf : Option ℕ :=
  match (segmentDynamic m eh).bind m.pointer with
  | some dyn => some dyn
  | none => if eh.shoff ≠ 0 ∧ eh.shnum ≠ 0 then (sectionDynamic m eh).bind m.pointer else none

/-- The file has what the search for the dynamic table reads: the program headers up to the first
`PT_DYNAMIC`, and if there is none, the section headers up to the first `SHT_DYNAMIC`. -/
structure DynamicIn : Prop where
  segment : ∀ i < eh.phnum, (∀ k < i, ¬IsOfType m (phdr eh) 0 ptDynamic k) →
    OffsetIn m (phdr eh) 0 ptDynamic 8 i
  sections : (segmentDynamic m eh).bind m.pointer = none → eh.shoff ≠ 0 ∧ eh.shnum ≠ 0 →
    ∀ i < eh.shnum, (∀ k < i, ¬IsOfType m (shdr eh) 4 shtDynamic k) →
      OffsetIn m (shdr eh) 4 shtDynamic 24 i

theorem findDynamic_exactly : Exactly (findDynamic m eh) (DynamicIn m eh) (dynamicOf m eh) := by
  rw [findDynamic]
  refine Exactly.congr ((firstOffset_exactly m (phdr eh) 0 ptDynamic 8 eh.phnum 0).bind
    (Q := (segmentDynamic m eh).bind m.pointer = none → eh.shoff ≠ 0 ∧ eh.shnum ≠ 0 →
      Upto (IsOfType m (shdr eh) 4 shtDynamic) (OffsetIn m (shdr eh) 4 shtDynamic 24)
        (List.range' 0 eh.shnum)) (b := dynamicOf m eh) fun _ => ?_) ?_ fun _ => rfl
  · show Exactly (match (segmentDynamic m eh).bind m.pointer with
      | some dyn => _
      | none => _) _ _
    rw [dynamicOf]
    cases (segmentDynamic m eh).bind m.pointer with
    | some dyn => exact (Exactly.pure (some dyn)).congr (by simp) fun _ => rfl
    | none =>
      by_cases hsections : eh.shoff ≠ 0 ∧ eh.shnum ≠ 0
      · simp only [if_pos hsections]
        refine Exactly.congr ((firstOffset_exactly m (shdr eh) 4 shtDynamic 24 eh.shnum 0).bind
          fun _ => Exactly.pure _) ?_ fun _ => rfl
        simp [hsections]
      · simp only [if_neg hsections]
        exact (Exactly.pure none).congr (by simp [hsections]) fun _ => rfl
  · rw [upto_range, upto_range]
    exact ⟨fun h => ⟨h.1, h.2⟩, fun h => ⟨h.segment, h.sections⟩⟩

/-- The loop reads the value of an entry with this tag. -/
def HasValue (tag : ℕ) : Prop := tag = dtRela ∨ tag = dtRelasz ∨ tag = dtRelaent

/-- The dynamic table at `dyn` ends inside the file. -/
inductive DynEnds (m : BootModule) : ℕ → Prop
  | null {dyn : ℕ} (inside : dyn + 8 ≤ m.size) (tag : m.field dyn 8 = dtNull) : DynEnds m dyn
  | entry {dyn : ℕ} (inside : dyn + 8 ≤ m.size) (tag : m.field dyn 8 ≠ dtNull)
      (value : HasValue (m.field dyn 8) → dyn + 16 ≤ m.size) (rest : DynEnds m (dyn + 16)) :
      DynEnds m dyn

/-- What an entry of the dynamic table says. -/
def dynEntry (dyn : ℕ) (table : RelaTable) : RelaTable :=
  if m.field dyn 8 = dtRela then { table with rela := m.field (dyn + 8) 8 }
  else if m.field dyn 8 = dtRelasz then { table with relasz := m.field (dyn + 8) 8 }
  else if m.field dyn 8 = dtRelaent then { table with relaent := m.field (dyn + 8) 8 }
  else table

/-- What the entries say up to the first `DT_NULL`. -/
def dynTable : ℕ → ℕ → RelaTable → RelaTable
  | 0, _, table => table
  | fuel + 1, dyn, table =>
      if m.field dyn 8 = dtNull then table else dynTable fuel (dyn + 16) (dynEntry m dyn table)

variable {m}

variable {dyn : ℕ}

theorem dynEnds_iff : DynEnds m dyn ↔ dyn + 8 ≤ m.size ∧
    (m.field dyn 8 ≠ dtNull → (HasValue (m.field dyn 8) → dyn + 16 ≤ m.size) ∧
      DynEnds m (dyn + 16)) := by
  constructor
  · rintro (⟨hin, htag⟩ | ⟨hin, -, hvalue, hrest⟩)
    · exact ⟨hin, fun hne => absurd htag hne⟩
    · exact ⟨hin, fun _ => ⟨hvalue, hrest⟩⟩
  · rintro ⟨hin, hrest⟩
    by_cases htag : m.field dyn 8 = dtNull
    · exact .null hin htag
    · exact .entry hin htag (hrest htag).1 (hrest htag).2

/-- **The loop over the dynamic table** ends, with any fuel that reaches the end of the file. -/
theorem dynLoop_exactly {fuel : ℕ} (hfuel : m.size < dyn + 16 * fuel) (hdyn : dyn < 2 ^ 64)
    (table : RelaTable) :
    Exactly (dynLoop m fuel dyn table) (DynEnds m dyn) (dynTable m fuel dyn table) := by
  induction fuel generalizing dyn table with
  | zero =>
    refine (Exactly.fail _ _).congr (iff_of_false False.elim fun h => ?_) fun _ => rfl
    have hin := (dynEnds_iff.1 h).1
    omega
  | succ fuel ih =>
    have hsize := m.size_le
    rw [dynLoop]
    refine Exactly.congr ((m.read_exactly hdyn).bind (Q := m.field dyn 8 ≠ dtNull →
      (HasValue (m.field dyn 8) → dyn + 16 ≤ m.size) ∧ DynEnds m (dyn + 16))
      (b := dynTable m (fuel + 1) dyn table) fun hin => ?_) dynEnds_iff.symm fun _ => rfl
    have hrest := fun t => @ih (dyn + 16) (by omega) (by omega) t
    -- an entry whose value is read
    have hvalue : ∀ {tag : ℕ} (g : ℕ → RelaTable), HasValue tag → tag ≠ dtNull →
        Exactly (m.read (dyn + 8) 8 >>= fun value => dynLoop m fuel (dyn + 16) (g value))
          (tag ≠ dtNull → (HasValue tag → dyn + 16 ≤ m.size) ∧ DynEnds m (dyn + 16))
          (dynTable m fuel (dyn + 16) (g (m.field (dyn + 8) 8))) := by
      intro tag g htag hne
      refine Exactly.congr ((m.read_exactly (show dyn + 8 < 2 ^ 64 by omega)).bind fun _ =>
        hrest _) ?_ fun _ => rfl
      simp [htag, hne]
    rw [dynTable, dynEntry]
    refine Exactly.ite (fun hnull => ?_) fun hnull => ?_
    · rw [if_pos hnull]
      exact (Exactly.pure table).congr (by simp [hnull]) fun _ => rfl
    · rw [if_neg hnull]
      refine Exactly.ite (fun h7 => ?_) fun h7 => Exactly.ite (fun h8 => ?_) fun h8 =>
        Exactly.ite (fun h9 => ?_) fun h9 => ?_
      · rw [if_pos h7]
        exact hvalue _ (.inl h7) hnull
      · rw [if_neg h7, if_pos h8]
        exact hvalue _ (.inr (.inl h8)) hnull
      · rw [if_neg h7, if_neg h8, if_pos h9]
        exact hvalue _ (.inr (.inr h9)) hnull
      · rw [if_neg h7, if_neg h8, if_neg h9]
        refine (hrest table).congr ?_ fun _ => rfl
        have hno : ¬HasValue (m.field dyn 8) := by
          rintro (h | h | h)
          · exact h7 h
          · exact h8 h
          · exact h9 h
        simp [hnull, hno]

/-! ## The sections with relocations -/

variable (m)

/-- `sh[i].sh_type`. -/
def shType (i : ℕ) : ℕ := m.val (shdr eh i + 4) 4

/-- `sh[i].sh_addr`. -/
def shAddr (i : ℕ) : ℕ := m.val (shdr eh i + 16) 8

/-- `sh[i].sh_size`. -/
def shSize (i : ℕ) : ℕ := m.val (shdr eh i + 32) 8

/-- `sh[i].sh_entsize`. -/
def shEntsize (i : ℕ) : ℕ := m.val (shdr eh i + 56) 8

/-- The section has relocations. -/
def RelaSection (i : ℕ) : Prop := shType m eh i = shtRela ∧ shSize m eh i ≠ 0

instance (i : ℕ) : Decidable (RelaSection m eh i) := inferInstanceAs (Decidable (_ ∧ _))

/-- The file has what the loop over the sections reads of a header. -/
def SectionIn (i : ℕ) : Prop :=
  m.Has (shdr eh i + 4) 4 ∧ (shType m eh i = shtRela → m.Has (shdr eh i + 32) 8 ∧
    (shSize m eh i ≠ 0 → m.Has (shdr eh i + 16) 8 ∧
      (shAddr m eh i = 0 → m.Has (shdr eh i + 24) 8) ∧ m.Has (shdr eh i + 56) 8))

/-- The table that the first section with relocations names. -/
def sectionTable (table : RelaTable) (l : List ℕ) : RelaTable :=
  match l.find? fun i => RelaSection m eh i with
  | none => table
  | some i => ⟨shAddr m eh i, shSize m eh i,
      if shEntsize m eh i ≠ 0 then shEntsize m eh i else table.relaent⟩

/-- What the loop reads of a section with relocations. -/
theorem relaSection_exactly (i relaent : ℕ) :
    Exactly (do
      let addr ← m.read (shdr eh i + 16) 8
      let _ ← firstRela m eh i addr
      let entsize ← m.read (shdr eh i + 56) 8
      .ok (RelaTable.mk addr (shSize m eh i) (if entsize ≠ 0 then entsize else relaent)))
      (m.Has (shdr eh i + 16) 8 ∧ (shAddr m eh i = 0 → m.Has (shdr eh i + 24) 8) ∧
        m.Has (shdr eh i + 56) 8)
      ⟨shAddr m eh i, shSize m eh i, if shEntsize m eh i ≠ 0 then shEntsize m eh i else relaent⟩ := by
  have hfirst : Exactly (firstRela m eh i (shAddr m eh i))
      (shAddr m eh i = 0 → m.Has (shdr eh i + 24) 8)
      (if shAddr m eh i = 0 then m.val (shdr eh i + 24) 8 else shAddr m eh i) := by
    rw [firstRela]
    refine Exactly.ite (fun h0 => ?_) fun h0 => ?_
    · rw [if_pos h0]
      exact (m.read_any _ _).congr (by simp [h0]) fun _ => rfl
    · rw [if_neg h0]
      exact (Exactly.pure _).congr (by simp [h0]) fun _ => rfl
  refine Exactly.congr ((m.read_any (shdr eh i + 16) 8).bind fun _ => hfirst.bind fun _ =>
    (m.read_any (shdr eh i + 56) 8).bind fun _ => Exactly.pure _) ?_ fun _ => rfl
  rw [and_true]

theorem read_shSize (i : ℕ) : Exactly (m.read (shdr eh i + 32) 8) (m.Has (shdr eh i + 32) 8)
    (shSize m eh i) := m.read_any _ _

theorem shtRelaLoop_exactly (left i : ℕ) (table : RelaTable) :
    Exactly (shtRelaLoop m eh left i table)
      (Upto (RelaSection m eh) (SectionIn m eh) (List.range' i left))
      (sectionTable m eh table (List.range' i left)) := by
  induction left generalizing i with
  | zero => exact Exactly.pure _
  | succ left ih =>
    rw [shtRelaLoop, List.range'_succ, Upto, SectionIn, and_assoc, sectionTable, List.find?_cons]
    refine (m.read_any (shdr eh i + 4) 4).bind fun _ => Exactly.ite (fun hrela => ?_) fun hrela => ?_
    · have hrela : shType m eh i = shtRela := hrela
      by_cases hsize : shSize m eh i = 0
      · have hno : ¬RelaSection m eh i := fun hr => hr.2 hsize
        rw [decide_eq_false hno]
        refine Exactly.congr ((read_shSize m eh i).bind fun _ => ?_)
          (P := m.Has (shdr eh i + 32) 8 ∧
            Upto (RelaSection m eh) (SectionIn m eh) (List.range' (i + 1) left)) ?_ fun _ => rfl
        · rw [if_neg (not_not.2 hsize)]
          exact ih (i + 1)
        · simp [hrela, hsize, hno]
      · have hfound : RelaSection m eh i := ⟨hrela, hsize⟩
        rw [decide_eq_true hfound]
        refine Exactly.congr ((read_shSize m eh i).bind fun _ => ?_)
          (P := m.Has (shdr eh i + 32) 8 ∧ m.Has (shdr eh i + 16) 8 ∧
            (shAddr m eh i = 0 → m.Has (shdr eh i + 24) 8) ∧ m.Has (shdr eh i + 56) 8)
          ?_ fun _ => rfl
        · rw [if_pos hsize]
          exact relaSection_exactly m eh i table.relaent
        · simp [hrela, hsize, hfound]
    · have hother : shType m eh i ≠ shtRela := hrela
      have hno : ¬RelaSection m eh i := fun hr => hother hr.1
      rw [decide_eq_false hno]
      exact (ih (i + 1)).congr (by simp [hother, hno]) fun _ => rfl

/-- The relocation table, as far as the dynamic table says it. -/
def dynamicTable : RelaTable :=
  match dynamicOf m eh with
  | some dyn => dynTable m (m.size / 16 + 1) dyn ⟨0, 0, 24⟩
  | none => ⟨0, 0, 24⟩

/-- The sections are asked for the relocation table. -/
def AsksSections : Prop :=
  ((dynamicTable m eh).rela = 0 ∨ (dynamicTable m eh).relasz = 0) ∧ eh.shoff ≠ 0 ∧ eh.shnum ≠ 0

instance : Decidable (AsksSections m eh) := inferInstanceAs (Decidable (_ ∧ _))

/-- The relocation table. -/
def relaTable : RelaTable :=
  if AsksSections m eh then sectionTable m eh (dynamicTable m eh) (List.range' 0 eh.shnum)
  else dynamicTable m eh

/-- The file has what the loader reads to find the relocation table. -/
structure TablesIn : Prop where
  dynamic : DynamicIn m eh
  ends : ∀ dyn, dynamicOf m eh = some dyn → DynEnds m dyn
  sections : AsksSections m eh → ∀ i < eh.shnum, (∀ k < i, ¬RelaSection m eh k) → SectionIn m eh i

theorem offsetOfType_lt {entry : ℕ → ℕ} {typeAt code offsetAt off : ℕ} {l : List ℕ}
    (h : offsetOfType m entry typeAt code offsetAt l = some off) : off < 2 ^ 64 := by
  obtain ⟨i, -, rfl⟩ := Option.map_eq_some_iff.1 h
  exact m.field_lt_64 _

theorem pointer_some {off : ℕ} (h : m.pointer off = some dyn) : dyn = off := by
  unfold BootModule.pointer at h
  split at h
  · cases h
  · exact (Option.some.inj h).symm

theorem dynamicOf_lt (h : dynamicOf m eh = some dyn) : dyn < 2 ^ 64 := by
  have hptr : ∀ {o : Option ℕ}, (∀ off, o = some off → off < 2 ^ 64) →
      o.bind m.pointer = some dyn → dyn < 2 ^ 64 := by
    intro o hlt hbind
    obtain ⟨off, ho, hp⟩ := Option.bind_eq_some_iff.1 hbind
    rw [pointer_some m hp]
    exact hlt off ho
  rw [dynamicOf] at h
  split at h
  · rename_i hsegment
    rw [h] at hsegment
    exact hptr (fun _ => offsetOfType_lt m) hsegment
  · split at h
    · exact hptr (fun _ => offsetOfType_lt m) h
    · cases h

theorem findRela_exactly : Exactly (findRela m eh) (TablesIn m eh) (relaTable m eh) := by
  have hdyn : Exactly (readDynamic m (dynamicOf m eh))
      (∀ dyn, dynamicOf m eh = some dyn → DynEnds m dyn) (dynamicTable m eh) := by
    rw [dynamicTable]
    cases hd : dynamicOf m eh with
    | none => exact (Exactly.pure _).congr (by simp) fun _ => rfl
    | some dyn =>
      exact (dynLoop_exactly (by omega) (dynamicOf_lt m eh hd) _).congr (by simp) fun _ => rfl
  rw [findRela]
  refine Exactly.congr ((findDynamic_exactly m eh).bind fun _ => hdyn.bind (Q := AsksSections m eh →
    ∀ i < eh.shnum, (∀ k < i, ¬RelaSection m eh k) → SectionIn m eh i) (b := relaTable m eh)
    fun _ => Exactly.ite (fun hasks => ?_) fun hasks => ?_) ?_ fun _ => rfl
  · have hasks' : AsksSections m eh := hasks
    rw [relaTable, if_pos hasks']
    refine (shtRelaLoop_exactly m eh eh.shnum 0 (dynamicTable m eh)).congr ?_ fun _ => rfl
    rw [upto_range]
    simp [hasks']
  · have hasks' : ¬AsksSections m eh := hasks
    rw [relaTable, if_neg hasks']
    exact (Exactly.pure _).congr (by simp [hasks']) fun _ => rfl
  · exact ⟨fun h => ⟨h.1, h.2.1, h.2.2⟩, fun h => ⟨h.dynamic, h.ends, h.sections⟩⟩

end Fields

/-! ## The relocations -/

/-- `Elf64_Rela`, with the type instead of `r_info`. -/
structure Elf64Rela where
  offset : ℕ
  type : ℕ
  addend : ℕ

/-- `r[i]`, from the image as it stands. -/
def recordAt (image : ℕ → UInt8) (rela i : ℕ) : Elf64Rela where
  offset := imageVal image (rela + 24 * i) 8
  type := imageVal image (rela + 24 * i + 8) 8 % 2 ^ 32
  addend := imageVal image (rela + 24 * i + 16) 8

/-- The loader knows the type. -/
def Elf64Rela.Supported (r : Elf64Rela) : Prop := r.type = rAArch64None ∨ r.type = rAArch64Relative

instance (r : Elf64Rela) : Decidable r.Supported := inferInstanceAs (Decidable (_ ∨ _))

/-- The image with one relocation more. -/
def applyRecord (dest : ℕ) (image : ℕ → UInt8) (r : Elf64Rela) : ℕ → UInt8 :=
  if r.type = rAArch64Relative then paste image ⟨r.offset, leBytes 8 (dest + r.addend)⟩ else image

/-- The image after so many relocations, each one read from what the ones before it left. -/
def relocated (dest rela : ℕ) (image : ℕ → UInt8) : ℕ → ℕ → UInt8
  | 0 => image
  | k + 1 => applyRecord dest (relocated dest rela image k)
      (recordAt (relocated dest rela image k) rela k)

/-- The relocation `i`, as the loader reads it. -/
def recordOf (dest rela : ℕ) (image : ℕ → UInt8) (i : ℕ) : Elf64Rela :=
  recordAt (relocated dest rela image i) rela i

/-- The image of `size` bytes has what the loop reads and writes for a relocation. -/
def RecordIn (dest rela size : ℕ) (image : ℕ → UInt8) (i : ℕ) : Prop :=
  u64 (rela + 24 * i + 8) + 8 ≤ size ∧ ((recordOf dest rela image i).type = rAArch64Relative →
    u64 (rela + 24 * i) + 8 ≤ size ∧ u64 (rela + 24 * i + 16) + 8 ≤ size ∧
      (recordOf dest rela image i).offset + 8 ≤ size)

/-- The image with the relocations, unless one of them has another type. -/
def relocatedOver (dest rela : ℕ) (image : ℕ → UInt8) (i left : ℕ) : Option (ℕ → UInt8) :=
  if ∀ j ∈ List.range' i left, (recordOf dest rela image j).Supported then
    some (relocated dest rela image (i + left))
  else none

section Relocations

variable (dest rela size : ℕ) (image : ℕ → UInt8)

theorem relocatedOver_succ {i : ℕ} (left : ℕ) (h : (recordOf dest rela image i).Supported) :
    relocatedOver dest rela image i (left + 1) = relocatedOver dest rela image (i + 1) left := by
  rw [relocatedOver, relocatedOver, List.range'_succ, show i + (left + 1) = i + 1 + left by omega]
  simp only [List.forall_mem_cons, h, true_and]

theorem length_leBytes (n v : ℕ) : (leBytes n v).length = n := by
  rw [leBytes, List.length_map, List.length_range]

theorem relocLoop_exactly (left i : ℕ) :
    Exactly (relocLoop dest size rela left i (relocated dest rela image i))
      (Upto (fun j => ¬(recordOf dest rela image j).Supported) (RecordIn dest rela size image)
        (List.range' i left))
      (relocatedOver dest rela image i left) := by
  induction left generalizing i with
  | zero => exact Exactly.pure _
  | succ left ih =>
    rw [relocLoop, List.range'_succ, Upto, RecordIn, and_assoc]
    refine (imageRead_exactly size _ (rela + 24 * i + 8) 8).bind fun _ =>
      Exactly.ite (fun hnone => ?_) fun hnone => Exactly.ite (fun hother => ?_) fun hrelative => ?_
    · have htype : (recordOf dest rela image i).type = rAArch64None := hnone
      have hsupported : (recordOf dest rela image i).Supported := .inl htype
      have hnext : relocated dest rela image (i + 1) = relocated dest rela image i := by
        show applyRecord dest _ (recordOf dest rela image i) = _
        rw [applyRecord, if_neg (by rw [htype]; decide)]
      rw [relocatedOver_succ dest rela image left hsupported, ← hnext]
      refine (ih (i + 1)).congr ?_ fun _ => rfl
      simp [htype, hsupported, rAArch64None, rAArch64Relative]
    · have hno : ¬(recordOf dest rela image i).Supported := by
        rintro (h | h)
        · exact hnone h
        · exact hother h
      refine (Exactly.pure none).congr ?_ fun _ => ?_
      · refine iff_of_true trivial ⟨fun h => absurd h hother, fun h => absurd hno h⟩
      · rw [relocatedOver, if_neg fun hall => hno (hall i (by simp))]
    · have htype : (recordOf dest rela image i).type = rAArch64Relative := not_not.1 hrelative
      have hsupported : (recordOf dest rela image i).Supported := .inr htype
      have hnext : relocated dest rela image (i + 1) = paste (relocated dest rela image i)
          ⟨(recordOf dest rela image i).offset,
            leBytes 8 (dest + (recordOf dest rela image i).addend)⟩ := by
        show applyRecord dest _ (recordOf dest rela image i) = _
        rw [applyRecord, if_pos htype]
      rw [relocatedOver_succ dest rela image left hsupported]
      refine Exactly.congr ((imageRead_exactly size _ (rela + 24 * i) 8).bind fun _ =>
        (imageRead_exactly size _ (rela + 24 * i + 16) 8).bind fun _ =>
          (imageWrite_exactly size _ _ _).bind fun _ => ?_)
        (P := u64 (rela + 24 * i) + 8 ≤ size ∧ u64 (rela + 24 * i + 16) + 8 ≤ size ∧
          ((leBytes 8 (dest + (recordOf dest rela image i).addend)).length = 0 ∨
            (recordOf dest rela image i).offset +
              (leBytes 8 (dest + (recordOf dest rela image i).addend)).length ≤ size) ∧
            Upto (fun j => ¬(recordOf dest rela image j).Supported)
              (RecordIn dest rela size image) (List.range' (i + 1) left)) ?_ fun _ => rfl
      · have hrest := ih (i + 1)
        rw [hnext] at hrest
        exact hrest
      · rw [length_leBytes]
        simp [htype, hsupported, and_assoc]

end Relocations

/-- The number of relocations. -/
def RelaTable.count (t : RelaTable) : ℕ :=
  if t.rela ≠ 0 ∧ t.relasz ≠ 0 ∧ t.relaent ≠ 0 then t.relasz / t.relaent else 0

/-- The image has what the relocations read and write, up to the first one of another type. -/
def RecordsIn (dest size : ℕ) (t : RelaTable) (image : ℕ → UInt8) : Prop :=
  ∀ i < t.count, (∀ k < i, (recordOf dest t.rela image k).Supported) →
    RecordIn dest t.rela size image i

theorem applyRela_exactly (dest size : ℕ) (t : RelaTable) (image : ℕ → UInt8) :
    Exactly (applyRela dest size t image) (RecordsIn dest size t image)
      (relocatedOver dest t.rela image 0 t.count) := by
  rw [applyRela]
  refine Exactly.ite (fun htable => ?_) fun htable => ?_
  · have hcount : t.count = t.relasz / t.relaent := if_pos htable
    rw [← hcount]
    refine (relocLoop_exactly dest t.rela size image t.count 0).congr ?_ fun _ => rfl
    rw [upto_range]
    simp only [not_not]
    rfl
  · have hcount : t.count = 0 := if_neg htable
    refine (Exactly.pure (some image)).congr ?_ fun _ => ?_
    · refine iff_of_true trivial fun i hi => ?_
      omega
    · rw [hcount]
      rfl

/-! ## The loader -/

section Loader

variable (hhdm : ℕ) (entries : List LimineMemmapEntry) (m : BootModule)

/-- The module is an ELF file that the loader accepts. -/
def Recognised : Prop :=
  sizeofElf64Ehdr ≤ m.size ∧ m.ehdr.ident = elfMag ∧ m.ehdr.machine = emAArch64 ∧
    (m.ehdr.type = etDyn ∨ m.ehdr.type = etExec)

instance : Decidable (Recognised m) := inferInstanceAs (Decidable (_ ∧ _))

/-- No segment is refused. -/
def Accepted : Prop := ∀ i ∈ List.range' 0 m.ehdr.phnum, ¬Refused m m.ehdr i

instance : Decidable (Accepted m) := inferInstanceAs (Decidable (∀ i ∈ List.range' 0 _, _))

/-- The image before the relocations. -/
def segmentImage : ℕ → UInt8 :=
  pasteAll (fun _ => 0) (segmentPieces m m.ehdr (List.range' 0 m.ehdr.phnum))

/-- All relocations have a type that the loader knows. -/
def Relocatable (dest : ℕ) : Prop :=
  ∀ i ∈ List.range' 0 (relaTable m m.ehdr).count,
    (recordOf dest (relaTable m m.ehdr).rela (segmentImage m) i).Supported

instance (dest : ℕ) : Decidable (Relocatable m dest) :=
  inferInstanceAs (Decidable (∀ i ∈ List.range' 0 _, _))

/-- What the loader touches once it has memory at `dest`: the bytes up to `image_end` are part of
what was found, the segments fit, and unless one of them is refused, so do the tables and the
relocations. -/
structure ImageCovered (dest : ℕ) : Prop where
  room : imageEndOf m m.ehdr + 0xffff < 2 ^ 64
  segments : ∀ i < m.ehdr.phnum, (∀ k < i, ¬Refused m m.ehdr k) →
    SegmentIn m m.ehdr (imageEndOf m m.ehdr) i
  tables : Accepted m → TablesIn m m.ehdr
  records : Accepted m →
    RecordsIn dest (imageEndOf m m.ehdr) (relaTable m m.ehdr) (segmentImage m)

/-- What the loader touches of a module it accepts. -/
def Touched : Prop :=
  Recognised m → (∀ i ∈ List.range' 0 m.ehdr.phnum, HeaderIn m m.ehdr i) ∧
    (imageEndOf m m.ehdr ≠ 0 → ∀ dest size,
      allocDest hhdm entries (imageEndOf m m.ehdr) = some (dest, size) → ImageCovered m dest)

/-- The kernel that the loader returns. -/
def kernelOf : Option LoadedKernel :=
  if Recognised m then
    if imageEndOf m m.ehdr = 0 then none
    else
      match allocDest hhdm entries (imageEndOf m m.ehdr) with
      | none => none
      | some (dest, _) =>
          if Accepted m then
            (relocatedOver dest (relaTable m m.ehdr).rela (segmentImage m) 0
              (relaTable m m.ehdr).count).map fun image =>
                ⟨dest, imageEndOf m m.ehdr, image, u64 (dest + m.ehdr.entry)⟩
          else none
  else none

theorem segmentEnd_lt {eh : Elf64Ehdr} {imageEnd : ℕ} (h : imageEnd < 2 ^ 64) (i : ℕ) :
    segmentEnd m eh imageEnd i < 2 ^ 64 := by
  have hend : u64 (phVaddr m eh i + phMemsz m eh i) < 2 ^ 64 := Nat.mod_lt _ (by norm_num)
  unfold segmentEnd
  split
  · exact h
  · split
    · exact hend
    · exact h

theorem imageEndOf_lt (eh : Elf64Ehdr) : imageEndOf m eh < 2 ^ 64 := by
  rw [imageEndOf]
  generalize List.range' 0 eh.phnum = l
  have hstart : (0 : ℕ) < 2 ^ 64 := by norm_num
  generalize 0 = imageEnd at hstart
  induction l generalizing imageEnd with
  | nil => exact hstart
  | cons i l ih =>
    rw [List.foldl_cons]
    exact ih _ (segmentEnd_lt m hstart i)

/-- The allocation has room for the image if the size does not wrap when it is rounded up. -/
theorem allocDest_room {imageEnd dest size : ℕ} (hlt : imageEnd < 2 ^ 64)
    (h : allocDest hhdm entries imageEnd = some (dest, size)) :
    imageEnd ≤ size ↔ imageEnd + 0xffff < 2 ^ 64 := by
  have hsize : size = alignUp imageEnd 0x10000 := by
    unfold allocDest allocPhysHhdm at h
    dsimp only at h
    split at h
    · cases h
    · rename_i phys n hphys
      split at hphys
      · cases hphys
      · split at h
        · cases h
        · obtain ⟨-, rfl⟩ := Prod.mk.inj (Option.some.inj h)
          exact (Prod.mk.inj (Option.some.inj hphys)).2.symm
  rw [hsize, alignUp, u64]
  constructor
  · intro hle
    by_contra hwrap
    have hmod : (imageEnd + 0x10000 - 1) % 2 ^ 64 = imageEnd + 0x10000 - 1 - 2 ^ 64 := by
      rw [Nat.mod_eq_sub_mod (by omega), Nat.mod_eq_of_lt (by omega)]
    omega
  · intro hfits
    have hmod : (imageEnd + 0x10000 - 1) % 2 ^ 64 = imageEnd + 0x10000 - 1 :=
      Nat.mod_eq_of_lt (by omega)
    omega

/-- What happens once there is memory. -/
theorem loadImage_exactly {dest size : ℕ}
    (hin : ∀ i ∈ List.range' 0 m.ehdr.phnum, HeaderIn m m.ehdr i)
    (halloc : allocDest hhdm entries (imageEndOf m m.ehdr) = some (dest, size)) :
    Exactly (do
      let zeros ← zeroFill (imageEndOf m m.ehdr) size
      let copied ← copyLoop m m.ehdr (imageEndOf m m.ehdr) m.ehdr.phnum 0 zeros
      match copied with
      | none => .ok none
      | some image => do
          let table ← findRela m m.ehdr
          let relocated ← applyRela dest (imageEndOf m m.ehdr) table image
          match relocated with
          | none => .ok none
          | some image => .ok (some ⟨dest, imageEndOf m m.ehdr, image, u64 (dest + m.ehdr.entry)⟩))
      (ImageCovered m dest)
      (if Accepted m then
        (relocatedOver dest (relaTable m m.ehdr).rela (segmentImage m) 0
          (relaTable m m.ehdr).count).map fun image =>
            LoadedKernel.mk dest (imageEndOf m m.ehdr) image (u64 (dest + m.ehdr.entry))
        else none) := by
  have hzero : Exactly (zeroFill (imageEndOf m m.ehdr) size) (imageEndOf m m.ehdr + 0xffff < 2 ^ 64)
      fun _ => 0 := by
    rw [← allocDest_room hhdm entries (imageEndOf_lt m m.ehdr) halloc]
    exact ⟨fun hle => if_pos hle, fun hgt => ⟨_, if_neg hgt⟩⟩
  refine Exactly.congr (hzero.bind fun _ => (copyLoop_exactly hin _).bind
    (Q := Accepted m → TablesIn m m.ehdr ∧
      RecordsIn dest (imageEndOf m m.ehdr) (relaTable m m.ehdr) (segmentImage m)) (b := if Accepted m
        then (relocatedOver dest (relaTable m m.ehdr).rela (segmentImage m) 0
          (relaTable m m.ehdr).count).map fun image =>
            LoadedKernel.mk dest (imageEndOf m m.ehdr) image (u64 (dest + m.ehdr.entry))
        else none) fun _ => ?_) ?_ fun _ => rfl
  · by_cases hacc : Accepted m
    · have hcopied : copiedOver m m.ehdr (fun _ => 0) (List.range' 0 m.ehdr.phnum) =
          some (segmentImage m) := if_pos hacc
      rw [hcopied, if_pos hacc]
      refine Exactly.congr ((findRela_exactly m m.ehdr).bind fun _ =>
        (applyRela_exactly dest _ _ _).bind (Q := True) (b :=
          (relocatedOver dest (relaTable m m.ehdr).rela (segmentImage m) 0
            (relaTable m m.ehdr).count).map fun image =>
              LoadedKernel.mk dest (imageEndOf m m.ehdr) image (u64 (dest + m.ehdr.entry)))
          fun _ => ?_) ?_ fun _ => rfl
      · cases relocatedOver dest (relaTable m m.ehdr).rela (segmentImage m) 0
          (relaTable m m.ehdr).count with
        | none => exact Exactly.pure none
        | some image => exact Exactly.pure _
      · simp [hacc]
    · have hcopied : copiedOver m m.ehdr (fun _ => 0) (List.range' 0 m.ehdr.phnum) = none :=
        if_neg hacc
      rw [hcopied, if_neg hacc]
      exact (Exactly.pure none).congr (by simp [hacc]) fun _ => rfl
  · rw [upto_range]
    constructor
    · rintro ⟨hroom, hsegments, hrest⟩
      exact ⟨hroom, hsegments, fun hacc => (hrest hacc).1, fun hacc => (hrest hacc).2⟩
    · rintro ⟨hroom, hsegments, htables, hrecords⟩
      exact ⟨hroom, hsegments, fun hacc => ⟨htables hacc, hrecords hacc⟩⟩

/-- **What the loader returns**, and when it gets there without an access out of bounds. -/
theorem loadKernelElf_exactly :
    Exactly (loadKernelElf hhdm entries m) (Touched hhdm entries m) (kernelOf hhdm entries m) := by
  have hnot : ¬Recognised m → Exactly (.ok none : Except Fault (Option LoadedKernel))
      (Touched hhdm entries m) (kernelOf hhdm entries m) := by
    intro hno
    refine (Exactly.pure none).congr ?_ fun _ => ?_
    · exact iff_of_true trivial fun hrec => absurd hrec hno
    · rw [kernelOf, if_neg hno]
  rw [loadKernelElf]
  refine Exactly.ite (fun hsmall => hnot fun hrec => ?_) fun hsize => Exactly.ite
    (fun hmag => hnot fun hrec => hmag hrec.2.1) fun hmag => Exactly.ite
    (fun hkind => hnot fun hrec => ?_) fun hkind => ?_
  · exact absurd hrec.1 (not_le.2 hsmall)
  · rcases hkind with hmachine | ⟨hdyn, hexec⟩
    · exact hmachine hrec.2.2.1
    · exact hrec.2.2.2.elim hdyn hexec
  · have hrec : Recognised m := by
      rw [not_or, not_not, not_and_or, not_not, not_not] at hkind
      exact ⟨not_lt.1 hsize, not_not.1 hmag, hkind⟩
    rw [kernelOf, if_pos hrec]
    have hphoff : phdr m.ehdr 0 < 2 ^ 64 := m.field_lt_64 32
    refine Exactly.congr ((imageEndLoop_exactly m.ehdr.phnum hphoff 0).bind
      (Q := imageEndOf m m.ehdr ≠ 0 → ∀ dest size,
        allocDest hhdm entries (imageEndOf m m.ehdr) = some (dest, size) → ImageCovered m dest)
      fun hin => Exactly.ite (fun hend => ?_) fun hend => ?_) ?_ fun _ => rfl
    · have hend : imageEndOf m m.ehdr = 0 := hend
      rw [if_pos hend]
      exact (Exactly.pure none).congr (by simp [hend]) fun _ => rfl
    · have hend : imageEndOf m m.ehdr ≠ 0 := hend
      rw [if_neg hend]
      show Exactly (match allocDest hhdm entries (imageEndOf m m.ehdr) with
        | none => .ok none
        | some (dest, size) => _) _ _
      cases halloc : allocDest hhdm entries (imageEndOf m m.ehdr) with
      | none => exact (Exactly.pure none).congr (by simp) fun _ => rfl
      | some place =>
        obtain ⟨dest, size⟩ := place
        refine (loadImage_exactly hhdm entries m hin halloc).congr ?_ fun _ => rfl
        simp [hend]
    · exact ⟨fun h _ => h, fun h => h hrec⟩

/-- The result of a load that stayed within bounds: `NULL`, or an entry inside the image. -/
def LoadedWithin (r : Except Fault (Option LoadedKernel)) : Prop :=
  ∃ o, r = .ok o ∧ ∀ l, o = some l → ∃ k < l.size, l.entry = u64 (l.dest + k)

/-- The module has everything where the loader looks for it: what it touches, and the entry of a
kernel that it returns. -/
def ModuleCovered : Prop :=
  Touched hhdm entries m ∧ (Recognised m → imageEndOf m m.ehdr ≠ 0 → ∀ dest size,
    allocDest hhdm entries (imageEndOf m m.ehdr) = some (dest, size) → Accepted m →
      Relocatable m dest → m.ehdr.entry < imageEndOf m m.ehdr)

/-- Two offsets below `2 ^ 64` give the same address only if they are equal. -/
theorem u64_add_inj {a b c : ℕ} (hb : b < 2 ^ 64) (hc : c < 2 ^ 64)
    (h : u64 (a + b) = u64 (a + c)) : b = c := by
  have hmod : b ≡ c [MOD 2 ^ 64] := Nat.ModEq.add_left_cancel' a h
  rwa [Nat.ModEq, Nat.mod_eq_of_lt hb, Nat.mod_eq_of_lt hc] at hmod

/-- When the loader returns a kernel. -/
theorem kernelOf_eq_some {l : LoadedKernel} : kernelOf hhdm entries m = some l ↔
    Recognised m ∧ imageEndOf m m.ehdr ≠ 0 ∧ ∃ dest size,
      allocDest hhdm entries (imageEndOf m m.ehdr) = some (dest, size) ∧ Accepted m ∧
        Relocatable m dest ∧ l = ⟨dest, imageEndOf m m.ehdr,
          relocated dest (relaTable m m.ehdr).rela (segmentImage m) (relaTable m m.ehdr).count,
          u64 (dest + m.ehdr.entry)⟩ := by
  have hover : ∀ dest, relocatedOver dest (relaTable m m.ehdr).rela (segmentImage m) 0
      (relaTable m m.ehdr).count = if Relocatable m dest then
        some (relocated dest (relaTable m m.ehdr).rela (segmentImage m) (relaTable m m.ehdr).count)
        else none := fun dest => by rw [relocatedOver, Nat.zero_add]; rfl
  by_cases hrec : Recognised m
  · by_cases hend : imageEndOf m m.ehdr = 0
    · simp [kernelOf, hrec, hend]
    · rw [kernelOf, if_pos hrec, if_neg hend]
      cases halloc : allocDest hhdm entries (imageEndOf m m.ehdr) with
      | none => simp
      | some place =>
        obtain ⟨dest, size⟩ := place
        by_cases hacc : Accepted m
        · by_cases hrel : Relocatable m dest
          · simp only [if_pos hacc, hover, if_pos hrel, Option.map_some]
            constructor
            · intro hl
              exact ⟨hrec, hend, dest, size, rfl, hacc, hrel, (Option.some.inj hl).symm⟩
            · rintro ⟨-, -, dest', size', hsame, -, -, rfl⟩
              obtain ⟨rfl, rfl⟩ := Prod.mk.inj (Option.some.inj hsame)
              rfl
          · simp only [if_pos hacc, hover, if_neg hrel, Option.map_none]
            refine iff_of_false (by simp) ?_
            rintro ⟨-, -, dest', size', hsame, -, hrel', -⟩
            obtain ⟨rfl, rfl⟩ := Prod.mk.inj (Option.some.inj hsame)
            exact hrel hrel'
        · simp [hacc]
  · simp [kernelOf, hrec]

/-- **The loader stays within bounds** exactly on the modules that have everything in place. -/
theorem load_kernel_elf_within_iff :
    LoadedWithin (loadKernelElf hhdm entries m) ↔ ModuleCovered hhdm entries m := by
  have hload := loadKernelElf_exactly hhdm entries m
  have hentry : m.ehdr.entry < 2 ^ 64 := m.field_lt_64 24
  have hend := imageEndOf_lt m m.ehdr
  constructor
  · rintro ⟨o, ho, hinside⟩
    have htouched := hload.isOk_iff.1 ⟨o, ho⟩
    rw [hload.ok htouched] at ho
    refine ⟨htouched, fun hrec hne dest size halloc hacc hrel => ?_⟩
    have hkernel := (kernelOf_eq_some hhdm entries m).2
      ⟨hrec, hne, dest, size, halloc, hacc, hrel, rfl⟩
    rw [hkernel] at ho
    obtain ⟨k, hk, hsame⟩ := hinside _ (Except.ok.inj ho).symm
    have hk' : k < imageEndOf m m.ehdr := hk
    rw [u64_add_inj hentry (by omega) hsame]
    exact hk'
  · rintro ⟨htouched, hinside⟩
    refine ⟨_, hload.ok htouched, fun l hl => ?_⟩
    obtain ⟨hrec, hne, dest, size, halloc, hacc, hrel, rfl⟩ := (kernelOf_eq_some hhdm entries m).1 hl
    exact ⟨m.ehdr.entry, hinside hrec hne dest size halloc hacc hrel, rfl⟩

end Loader

/-! ## A truncated file -/

/-- The header of an AArch64 kernel with one program header, and nothing behind it. -/
def bareHeader : BootModule where
  address := 0x100000
  bytes := elfMag ++ List.replicate 12 0 ++ leBytes 2 etDyn ++ leBytes 2 emAArch64 ++ leBytes 4 1 ++
    leBytes 8 0 ++ leBytes 8 64 ++ leBytes 8 0 ++ leBytes 4 0 ++ leBytes 2 64 ++ leBytes 2 56 ++
    leBytes 2 1 ++ leBytes 2 64 ++ leBytes 2 0 ++ leBytes 2 0
  above := by decide
  inside := by decide

/-- **A file that ends behind its header** makes the loader read past it. -/
theorem bareHeader_past_end :
    ¬LoadedWithin (loadKernelElf 0 [⟨0x40000000, 0x8000000, .usable⟩] bareHeader) := by
  rintro ⟨o, ho, -⟩
  have htouched := (loadKernelElf_exactly _ _ bareHeader).isOk_iff.1 ⟨o, ho⟩
  have hheader : HeaderIn bareHeader bareHeader.ehdr 0 := (htouched (by decide)).1 0 (by decide)
  exact absurd hheader.1 (by decide)

end ZealBringup.Boot
