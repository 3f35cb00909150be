import Mathlib

/-!
# The native source partition: sectors, names and record headers

The byte-level half of `zc_source_store.h`: little-endian words inside a sector,
the CRC, the path rules of `zss_name_ok`, and the header formats `ZCFILE1` and
`ZCDEL1` with the decoder that guards them.

A C string is modelled by the bytes before its terminator.  Sector offsets are
plain numbers; the 32-bit sums of the decoder are taken modulo `2 ^ 32`, because
the fields they add come from the disk.

The main results are `zssDecodeRecord_fileHeader` and
`zssDecodeRecord_deleteHeader`: what the store writes is what it reads back.
-/

namespace ZealBringup.Store

/-! ## Sectors -/

/-- One 512-byte sector. -/
abbrev Sector := Fin 512 → UInt8

/-- The byte at offset `i`. -/
def Sector.get (s : Sector) (i : ℕ) : UInt8 := if h : i < 512 then s ⟨i, h⟩ else 0

/-- The sector of zeros that ends the log. -/
def zeroSector : Sector := fun _ => 0

/-- The loop that looks for a nonzero byte. -/
def isEmptySector (s : Sector) : Bool := decide (∀ i, s i = 0)

variable {s : Sector}

theorem isEmptySector_iff : isEmptySector s = true ↔ s = zeroSector := by
  simp only [isEmptySector, decide_eq_true_eq]
  exact ⟨fun h => funext h, fun h i => congrFun h i⟩

/-- Bytes laid down from the start of a zeroed sector. -/
def padSector (bs : List UInt8) : Sector := fun i => bs.getD i 0

/-- Bytes copied over a sector from offset `off` on. -/
def copyBytes (s : Sector) (off : ℕ) (bs : List UInt8) : Sector :=
  fun i => if off ≤ i.val ∧ i.val < off + bs.length then bs.getD (i.val - off) 0 else s i

/-- The first `n` bytes from offset `off`. -/
def Sector.slice (s : Sector) (off n : ℕ) : List UInt8 :=
  (List.range n).map fun i => s.get (off + i)

/-- `zss_u32`: a little-endian word. -/
def zssU32 (s : Sector) (off : ℕ) : ℕ :=
  (s.get off).toNat + (s.get (off + 1)).toNat * 2 ^ 8 +
    (s.get (off + 2)).toNat * 2 ^ 16 + (s.get (off + 3)).toNat * 2 ^ 24

/-- `zss_w32`. -/
def zssW32 (s : Sector) (off v : ℕ) : Sector :=
  copyBytes s off [UInt8.ofNat v, UInt8.ofNat (v / 2 ^ 8), UInt8.ofNat (v / 2 ^ 16),
    UInt8.ofNat (v / 2 ^ 24)]

/-- `zss_eq`: the first bytes of the sector spell `bs`. -/
def zssEq (s : Sector) (bs : List UInt8) : Bool :=
  (List.range bs.length).all fun i => s.get i == bs.getD i 0

variable {i : ℕ}

theorem get_copyBytes (s : Sector) (off : ℕ) (bs : List UInt8) (hi : i < 512) :
    (copyBytes s off bs).get i =
      if off ≤ i ∧ i < off + bs.length then bs.getD (i - off) 0 else s.get i := by
  simp [Sector.get, copyBytes, hi]

theorem get_zeroSector (i : ℕ) : zeroSector.get i = 0 := by
  simp [Sector.get, zeroSector]

theorem zssU32_lt (s : Sector) (off : ℕ) : zssU32 s off < 2 ^ 32 := by
  have h0 := (s.get off).toNat_lt
  have h1 := (s.get (off + 1)).toNat_lt
  have h2 := (s.get (off + 2)).toNat_lt
  have h3 := (s.get (off + 3)).toNat_lt
  unfold zssU32
  omega

variable {off v : ℕ}

/-- The low four bytes of a number are read back where they were written. -/
theorem zssU32_zssW32_mod (s : Sector) (hoff : off + 3 < 512) :
    zssU32 (zssW32 s off v) off = v % 2 ^ 32 := by
  unfold zssU32 zssW32
  rw [get_copyBytes _ _ _ (by omega), get_copyBytes _ _ _ (by omega),
    get_copyBytes _ _ _ (by omega), get_copyBytes _ _ _ (by omega)]
  simp only [List.length_cons, List.length_nil]
  rw [if_pos (by omega), if_pos (by omega), if_pos (by omega), if_pos (by omega)]
  simp only [Nat.sub_self, Nat.add_sub_cancel_left, List.getD_cons_zero, List.getD_cons_succ,
    UInt8.toNat_ofNat']
  omega

theorem zssU32_zssW32 (s : Sector) (hoff : off + 3 < 512) (hv : v < 2 ^ 32) :
    zssU32 (zssW32 s off v) off = v := by
  rw [zssU32_zssW32_mod s hoff, Nat.mod_eq_of_lt hv]

variable {bs : List UInt8}

/-- Bytes copied elsewhere do not change a word. -/
theorem zssU32_copyBytes_ne (s : Sector) {at' : ℕ} (hoff : off + 3 < 512)
    (h : off + 3 < at' ∨ at' + bs.length ≤ off) :
    zssU32 (copyBytes s at' bs) off = zssU32 s off := by
  unfold zssU32
  rw [get_copyBytes _ _ _ (by omega), get_copyBytes _ _ _ (by omega),
    get_copyBytes _ _ _ (by omega), get_copyBytes _ _ _ (by omega)]
  rw [if_neg (by omega), if_neg (by omega), if_neg (by omega), if_neg (by omega)]

theorem zssU32_zssW32_ne (s : Sector) {at' : ℕ} (hoff : off + 3 < 512)
    (h : off + 3 < at' ∨ at' + 4 ≤ off) : zssU32 (zssW32 s at' v) off = zssU32 s off :=
  zssU32_copyBytes_ne s hoff (by simpa using h)

theorem slice_copyBytes (s : Sector) (h : off + bs.length ≤ 512) :
    (copyBytes s off bs).slice off bs.length = bs := by
  refine List.ext_getElem (by simp [Sector.slice]) ?_
  intro i hi hi'
  simp only [Sector.slice, List.getElem_map, List.getElem_range]
  rw [get_copyBytes _ _ _ (by omega), if_pos (by omega), Nat.add_sub_cancel_left,
    List.getD_eq_getElem _ _ hi']

theorem zssEq_congr {t : Sector} (h : ∀ i < bs.length, s.get i = t.get i) :
    zssEq s bs = zssEq t bs := by
  unfold zssEq
  refine Bool.eq_iff_iff.2 ?_
  simp only [List.all_eq_true, List.mem_range]
  exact ⟨fun H i hi => h i hi ▸ H i hi, fun H i hi => (h i hi).symm ▸ H i hi⟩

theorem zssEq_copyBytes (s : Sector) (h : bs.length ≤ 512) :
    zssEq (copyBytes s 0 bs) bs = true := by
  unfold zssEq
  rw [List.all_eq_true]
  intro i hi
  have hi' := List.mem_range.1 hi
  rw [get_copyBytes _ _ _ (by omega), if_pos ⟨Nat.zero_le _, by omega⟩, Nat.sub_zero]
  exact beq_self_eq_true _

theorem get_zssW32_ne (s : Sector) (hi : i < 512) (h : i < off ∨ off + 4 ≤ i) :
    (zssW32 s off v).get i = s.get i := by
  unfold zssW32
  rw [get_copyBytes _ _ _ hi, if_neg (by simp only [List.length_cons, List.length_nil]; omega)]

theorem zssEq_zssW32 (s : Sector) (h : bs.length ≤ off) (hoff : off ≤ 512) :
    zssEq (zssW32 s off v) bs = zssEq s bs :=
  zssEq_congr fun _ hi => get_zssW32_ne s (by omega) (Or.inl (by omega))

variable {n : ℕ}

theorem slice_congr {t : Sector} (h : ∀ i < n, s.get (off + i) = t.get (off + i)) :
    s.slice off n = t.slice off n :=
  List.map_congr_left fun i hi => h i (List.mem_range.1 hi)

/-! ## The checksum -/

/-- One turn of the loop of `zss_crc_step`. -/
def crcShift (crc : UInt32) : UInt32 := (crc >>> 1) ^^^ (0xedb88320 &&& (0 - (crc &&& 1)))

/-- `zss_crc_step`. -/
def zssCrcStep (crc : UInt32) (byte : UInt8) : UInt32 := crcShift^[8] (crc ^^^ byte.toUInt32)

/-- `zss_crc`. -/
def zssCrc (data : List UInt8) : UInt32 := data.foldl zssCrcStep 0xffffffff ^^^ 0xffffffff

/-! ## Names -/

/-- `ZSS_MAX_NAME`. -/
def zssMaxName : ℕ := 95

/-- `ZSS_MAX_FILE`. -/
def zssMaxFile : ℕ := 4 * 1024 * 1024

/-- The first loop of `zss_name_ok`: `i` counts bytes, `segment` those since the
last `'/'`. -/
def zssNameScan : List UInt8 → ℕ → ℕ → Option (ℕ × ℕ)
  | [], i, segment => some (i, segment)
  | c :: cs, i, segment =>
      if i + 1 > zssMaxName ∨ c < 33 ∨ c > 126 ∨ c = 58 ∨ c = 92 then none
      else if c = 47 then
        if segment = 0 then none else zssNameScan cs (i + 1) 0
      else zssNameScan cs (i + 1) (segment + 1)

/-- The second loop of `zss_name_ok`: no component may be `"."` or `".."`.  `rest`
is what lies between `start` and the end of the name. -/
def zssNoTraversal : ℕ → List UInt8 → Bool
  | 0, _ => true
  | fuel + 1, rest =>
      if rest = [] then true
      else
        let segment := rest.takeWhile (· ≠ 47)
        if segment = [46] ∨ segment = [46, 46] then false
        else zssNoTraversal fuel (rest.drop (segment.length + 1))

/-- `zss_name_ok`; the value is `*out_len`. -/
def zssNameOk (s : List UInt8) : Option ℕ :=
  if s = [] then none
  else
    match zssNameScan s 0 0 with
    | none => none
    | some (i, segment) =>
        if segment = 0 then none else if zssNoTraversal i s then some i else none

/-- A byte the first loop lets through. -/
def NameByte (c : UInt8) : Prop := 33 ≤ c ∧ c ≤ 126 ∧ c ≠ 58 ∧ c ≠ 92

instance : DecidablePred NameByte := fun c =>
  inferInstanceAs (Decidable (33 ≤ c ∧ c ≤ 126 ∧ c ≠ 58 ∧ c ≠ 92))

theorem NameByte.ne_zero {c : UInt8} (h : NameByte c) : c ≠ 0 := by
  rintro rfl
  exact absurd h.1 (by decide)

theorem zssNameScan_some {s : List UInt8} {segment j seg' : ℕ}
    (h : zssNameScan s i segment = some (j, seg')) :
    j = i + s.length ∧ (s ≠ [] → i + s.length ≤ zssMaxName) ∧ ∀ c ∈ s, NameByte c := by
  induction s generalizing i segment with
  | nil =>
    simp only [zssNameScan, Option.some.injEq, Prod.mk.injEq] at h
    exact ⟨by simp [h.1], fun hne => absurd rfl hne, by simp⟩
  | cons c cs ih =>
    simp only [zssNameScan] at h
    split at h
    · cases h
    · rename_i hc
      simp only [not_or, not_lt, gt_iff_lt, UInt8.not_lt] at hc
      have hbyte : NameByte c := ⟨hc.2.1, hc.2.2.1, hc.2.2.2.1, hc.2.2.2.2⟩
      have key : ∀ seg, zssNameScan cs (i + 1) seg = some (j, seg') →
          j = i + (c :: cs).length ∧ (c :: cs ≠ [] → i + (c :: cs).length ≤ zssMaxName) ∧
            ∀ c' ∈ c :: cs, NameByte c' := by
        intro seg hs
        obtain ⟨h1, h2, h3⟩ := ih hs
        refine ⟨by rw [h1, List.length_cons]; omega, fun _ => ?_, ?_⟩
        · cases cs with
          | nil => simpa using hc.1
          | cons d ds =>
            have := h2 (by simp)
            simp only [List.length_cons] at this ⊢
            omega
        · intro c' hc'
          rcases List.mem_cons.1 hc' with rfl | hc'
          · exact hbyte
          · exact h3 c' hc'
      split at h
      · split at h
        · cases h
        · exact key _ h
      · exact key _ h

/-- An accepted name: its length, that it fits, and what it is made of. -/
theorem zssNameOk_some {s : List UInt8} (h : zssNameOk s = some n) :
    n = s.length ∧ 0 < n ∧ n ≤ zssMaxName ∧ ∀ c ∈ s, NameByte c := by
  unfold zssNameOk at h
  split at h
  · cases h
  · rename_i hne
    split at h
    · cases h
    · rename_i i seg hs
      obtain ⟨h1, h2, h3⟩ := zssNameScan_some hs
      split at h
      · cases h
      · split at h
        · cases h
          have := h2 hne
          have hpos : 0 < s.length := List.length_pos_iff.2 hne
          exact ⟨by omega, by omega, by omega, h3⟩
        · cases h

/-! ## Record headers -/

/-- `struct zss_entry`. -/
structure ZssEntry where
  headerSector : ℕ
  length : ℕ
  checksum : ℕ
  blocks : ℕ
  deriving DecidableEq, Repr

/-- `"ZCFILE1"`. -/
def fileMagic : List UInt8 := [90, 67, 70, 73, 76, 69, 49]

/-- `"ZCDEL1"`. -/
def deleteMagic : List UInt8 := [90, 67, 68, 69, 76, 49]

/-- The C string that starts a buffer: everything before the first NUL. -/
def cString (bs : List UInt8) : List UInt8 := bs.takeWhile (· ≠ 0)

theorem cString_eq_self (h : ∀ c ∈ bs, c ≠ 0) : cString bs = bs :=
  List.takeWhile_eq_self_iff.2 fun c hc => by simpa using h c hc

/-- The `name_len` bytes of a header. -/
def nameField (header : Sector) : List UInt8 := header.slice 32 (zssU32 header 20)

/-- What `zss_decode_record` hands back: the entry, its name and `*deleted`. -/
structure LogRecord where
  entry : ZssEntry
  name : List UInt8
  deleted : Bool
  deriving DecidableEq, Repr

/-- `is_delete` of `zss_decode_record`. -/
def isDeleteHeader (sector : Sector) : Bool :=
  zssEq sector deleteMagic && sector.get 6 == 0 && sector.get 7 == 0

/-- `is_file` of `zss_decode_record`. -/
def isFileHeader (sector : Sector) : Bool := zssEq sector fileMagic && sector.get 7 == 0

/-- The condition under which `zss_decode_record` rejects a header before it looks
at the name. -/
def BadHeader (sectors : ℕ) (sector : Sector) (pos : ℕ) : Prop :=
  (isFileHeader sector = false ∧ isDeleteHeader sector = false) ∨
    zssU32 sector 20 = 0 ∨ zssU32 sector 20 > zssMaxName ∨
    (pos + 1 + zssU32 sector 16) % 2 ^ 32 > sectors ∨
    if isDeleteHeader sector then
      zssU32 sector 8 ≠ 0 ∨ zssU32 sector 12 ≠ 0 ∨ zssU32 sector 16 ≠ 0
    else
      zssU32 sector 8 = 0 ∨ zssU32 sector 8 > zssMaxFile ∨
        zssU32 sector 16 ≠ (zssU32 sector 8 + 511) / 512

instance (sectors : ℕ) (sector : Sector) (pos : ℕ) : Decidable (BadHeader sectors sector pos) :=
  inferInstanceAs (Decidable (_ ∨ _ ∨ _ ∨ _ ∨ _))

/-- `zss_decode_record` with `g_zss_sectors = sectors`.  The name is copied into a
NUL-terminated buffer and only then checked. -/
def zssDecodeRecord (sectors : ℕ) (sector : Sector) (pos : ℕ) : Option LogRecord :=
  if BadHeader sectors sector pos then none
  else
    let name := cString (sector.slice 32 (zssU32 sector 20))
    if (zssNameOk name).isNone then none
    else some ⟨⟨pos, zssU32 sector 8, zssU32 sector 12, zssU32 sector 16⟩, name,
      isDeleteHeader sector⟩

/-- The header `zss_put` and `zss_stream_finish` publish. -/
def fileHeader (length checksum blocks : ℕ) (name : List UInt8) : Sector :=
  copyBytes (zssW32 (zssW32 (zssW32 (zssW32 (copyBytes zeroSector 0 fileMagic)
    8 length) 12 checksum) 16 blocks) 20 name.length) 32 name

/-- The tombstone `zss_delete` publishes. -/
def deleteHeader (name : List UInt8) : Sector :=
  copyBytes (zssW32 (copyBytes zeroSector 0 deleteMagic) 20 name.length) 32 name

variable {length checksum blocks : ℕ} {name : List UInt8}

theorem get_fileHeader (hi : i < 8) :
    (fileHeader length checksum blocks name).get i = (copyBytes zeroSector 0 fileMagic).get i := by
  unfold fileHeader zssW32
  rw [get_copyBytes _ _ _ (by omega), if_neg (by omega), get_copyBytes _ _ _ (by omega),
    if_neg (by omega), get_copyBytes _ _ _ (by omega), if_neg (by omega),
    get_copyBytes _ _ _ (by omega), if_neg (by omega), get_copyBytes _ _ _ (by omega),
    if_neg (by omega)]

theorem get_deleteHeader (hi : i < 8) :
    (deleteHeader name).get i = (copyBytes zeroSector 0 deleteMagic).get i := by
  unfold deleteHeader zssW32
  rw [get_copyBytes _ _ _ (by omega), if_neg (by omega), get_copyBytes _ _ _ (by omega),
    if_neg (by omega)]

theorem zssU32_fileHeader (hl : length < 2 ^ 32) (hc : checksum < 2 ^ 32) (hb : blocks < 2 ^ 32)
    (hn : name.length ≤ zssMaxName) :
    zssU32 (fileHeader length checksum blocks name) 8 = length ∧
      zssU32 (fileHeader length checksum blocks name) 12 = checksum ∧
      zssU32 (fileHeader length checksum blocks name) 16 = blocks ∧
      zssU32 (fileHeader length checksum blocks name) 20 = name.length := by
  unfold zssMaxName at hn
  unfold fileHeader
  refine ⟨?_, ?_, ?_, ?_⟩
  · rw [zssU32_copyBytes_ne _ (by omega) (by omega), zssU32_zssW32_ne _ (by omega) (by omega),
      zssU32_zssW32_ne _ (by omega) (by omega), zssU32_zssW32_ne _ (by omega) (by omega),
      zssU32_zssW32 _ (by omega) hl]
  · rw [zssU32_copyBytes_ne _ (by omega) (by omega), zssU32_zssW32_ne _ (by omega) (by omega),
      zssU32_zssW32_ne _ (by omega) (by omega), zssU32_zssW32 _ (by omega) hc]
  · rw [zssU32_copyBytes_ne _ (by omega) (by omega), zssU32_zssW32_ne _ (by omega) (by omega),
      zssU32_zssW32 _ (by omega) hb]
  · rw [zssU32_copyBytes_ne _ (by omega) (by omega), zssU32_zssW32 _ (by omega) (by omega)]

theorem zssU32_zero (off : ℕ) : zssU32 zeroSector off = 0 := by
  simp [zssU32, get_zeroSector]

theorem zssU32_deleteHeader (hn : name.length ≤ zssMaxName) :
    zssU32 (deleteHeader name) 8 = 0 ∧ zssU32 (deleteHeader name) 12 = 0 ∧
      zssU32 (deleteHeader name) 16 = 0 ∧ zssU32 (deleteHeader name) 20 = name.length := by
  unfold zssMaxName at hn
  unfold deleteHeader
  have hz : ∀ off, 8 ≤ off → off + 3 < 512 →
      zssU32 (copyBytes zeroSector 0 deleteMagic) off = 0 := by
    intro off h1 h2
    rw [zssU32_copyBytes_ne _ h2 (Or.inr (by simpa [deleteMagic] using by omega)), zssU32_zero]
  refine ⟨?_, ?_, ?_, ?_⟩
  · rw [zssU32_copyBytes_ne _ (by omega) (by omega), zssU32_zssW32_ne _ (by omega) (by omega),
      hz _ (by omega) (by omega)]
  · rw [zssU32_copyBytes_ne _ (by omega) (by omega), zssU32_zssW32_ne _ (by omega) (by omega),
      hz _ (by omega) (by omega)]
  · rw [zssU32_copyBytes_ne _ (by omega) (by omega), zssU32_zssW32_ne _ (by omega) (by omega),
      hz _ (by omega) (by omega)]
  · rw [zssU32_copyBytes_ne _ (by omega) (by omega), zssU32_zssW32 _ (by omega) (by omega)]

theorem nameField_fileHeader (hn : name.length ≤ zssMaxName) :
    nameField (fileHeader length checksum blocks name) = name := by
  have hn' : name.length ≤ 95 := hn
  have h20 : zssU32 (fileHeader length checksum blocks name) 20 = name.length := by
    rw [fileHeader, zssU32_copyBytes_ne _ (by omega) (by omega), zssU32_zssW32 _ (by omega) (by omega)]
  rw [nameField, h20]
  exact slice_copyBytes _ (by omega)

theorem nameField_deleteHeader (hn : name.length ≤ zssMaxName) :
    nameField (deleteHeader name) = name := by
  have hn' : name.length ≤ 95 := hn
  rw [nameField, (zssU32_deleteHeader hn).2.2.2]
  exact slice_copyBytes _ (by omega)

/-- An accepted name has no NUL in it, and so has the field of its header. -/
theorem nul_not_mem_fileHeader (h : zssNameOk name = some n) :
    0 ∉ nameField (fileHeader length checksum blocks name) := by
  obtain ⟨hn, -, hle, hbytes⟩ := zssNameOk_some h
  rw [nameField_fileHeader (by omega)]
  exact fun hz => (hbytes 0 hz).ne_zero rfl

theorem nul_not_mem_deleteHeader (h : zssNameOk name = some n) :
    0 ∉ nameField (deleteHeader name) := by
  obtain ⟨hn, -, hle, hbytes⟩ := zssNameOk_some h
  rw [nameField_deleteHeader (by omega)]
  exact fun hz => (hbytes 0 hz).ne_zero rfl

variable {sectors pos : ℕ}

/-- A published file header decodes to the record it was made for. -/
theorem zssDecodeRecord_fileHeader (hname : zssNameOk name = some n) (hlen : 0 < length)
    (hmax : length ≤ zssMaxFile) (hc : checksum < 2 ^ 32)
    (hfit : pos + 1 + (length + 511) / 512 ≤ sectors) (hsec : sectors < 2 ^ 32) :
    zssDecodeRecord sectors (fileHeader length checksum ((length + 511) / 512) name) pos =
      some ⟨⟨pos, length, checksum, (length + 511) / 512⟩, name, false⟩ := by
  obtain ⟨hn, hpos, hle, hbytes⟩ := zssNameOk_some hname
  subst hn
  have hmax' : length ≤ 4194304 := hmax
  obtain ⟨h8, h12, h16, h20⟩ := @zssU32_fileHeader length checksum
    ((length + 511) / 512) name (by omega) hc (by omega) hle
  have hfile : isFileHeader (fileHeader length checksum ((length + 511) / 512) name) = true := by
    rw [isFileHeader, get_fileHeader (by omega),
      zssEq_congr fun i hi => get_fileHeader (by simp [fileMagic] at hi; omega)]
    decide
  have hdel : isDeleteHeader (fileHeader length checksum ((length + 511) / 512) name) = false := by
    rw [isDeleteHeader, zssEq_congr fun i hi => get_fileHeader (by simp [deleteMagic] at hi; omega),
      show zssEq (copyBytes zeroSector 0 fileMagic) deleteMagic = false by decide]
    rfl
  have hslice : (fileHeader length checksum ((length + 511) / 512) name).slice 32 name.length
      = name := slice_copyBytes _ (by unfold zssMaxName at hle; omega)
  have hgood : ¬BadHeader sectors (fileHeader length checksum ((length + 511) / 512) name) pos := by
    unfold BadHeader
    rw [hfile, hdel, h8, h16, h20, Nat.mod_eq_of_lt (by omega), if_neg (by simp)]
    rintro (⟨h, -⟩ | h | h | h | h | h | h)
    · cases h
    all_goals omega
  rw [zssDecodeRecord, if_neg hgood]
  simp only [h8, h12, h16, h20, hslice, hdel, cString_eq_self fun c hc => (hbytes c hc).ne_zero]
  rw [hname]
  rfl

/-- A published tombstone decodes to the deletion it was made for. -/
theorem zssDecodeRecord_deleteHeader (hname : zssNameOk name = some n) (hfit : pos + 1 ≤ sectors)
    (hsec : sectors < 2 ^ 32) :
    zssDecodeRecord sectors (deleteHeader name) pos = some ⟨⟨pos, 0, 0, 0⟩, name, true⟩ := by
  obtain ⟨hn, hpos, hle, hbytes⟩ := zssNameOk_some hname
  subst hn
  obtain ⟨h8, h12, h16, h20⟩ := @zssU32_deleteHeader name hle
  have hdel : isDeleteHeader (deleteHeader name) = true := by
    rw [isDeleteHeader, get_deleteHeader (by omega), get_deleteHeader (by omega),
      zssEq_congr fun i hi => get_deleteHeader (by simp [deleteMagic] at hi; omega)]
    decide
  have hslice : (deleteHeader name).slice 32 name.length = name :=
    slice_copyBytes _ (by unfold zssMaxName at hle; omega)
  have hgood : ¬BadHeader sectors (deleteHeader name) pos := by
    unfold BadHeader
    rw [hdel, h8, h12, h16, h20, Nat.mod_eq_of_lt (by omega), if_pos rfl]
    rintro (⟨-, h⟩ | h | h | h | h | h | h)
    · cases h
    all_goals omega
  rw [zssDecodeRecord, if_neg hgood]
  simp only [h8, h12, h16, h20, hslice, hdel, cString_eq_self fun c hc => (hbytes c hc).ne_zero]
  rw [hname]
  rfl

/-- What a header that passed the first test looks like. -/
theorem not_badHeader (h : ¬BadHeader sectors s pos) (hpos : pos < 2 ^ 31) :
    pos + 1 + zssU32 s 16 ≤ sectors ∧ zssU32 s 16 = (zssU32 s 8 + 511) / 512 ∧
      zssU32 s 8 ≤ zssMaxFile ∧ (isDeleteHeader s = true ↔ zssU32 s 8 = 0) := by
  simp only [BadHeader, not_or, not_lt, gt_iff_lt] at h
  obtain ⟨-, -, -, hfit, hbody⟩ := h
  by_cases hdel : isDeleteHeader s = true
  · rw [if_pos hdel] at hbody
    simp only [not_or, not_not] at hbody
    rw [hbody.2.2, Nat.mod_eq_of_lt (by omega)] at hfit
    rw [hbody.1, hbody.2.2]
    exact ⟨hfit, by simp, by simp, by simp [hdel]⟩
  · rw [if_neg hdel] at hbody
    simp only [not_or, not_lt, not_not] at hbody
    have hmax : zssU32 s 8 ≤ 4194304 := hbody.2.1
    rw [Nat.mod_eq_of_lt (by omega)] at hfit
    exact ⟨hfit, hbody.2.2, hbody.2.1, iff_of_false hdel hbody.1⟩

/-- A decoded record spans at least its header and stays inside the bank. -/
theorem zssDecodeRecord_some {r : LogRecord} (h : zssDecodeRecord sectors s pos = some r)
    (hpos : pos < 2 ^ 31) :
    r.entry.headerSector = pos ∧ pos + 1 + r.entry.blocks ≤ sectors ∧
      r.entry.blocks = (r.entry.length + 511) / 512 ∧ r.entry.length ≤ zssMaxFile ∧
      (r.deleted = true ↔ r.entry.length = 0) ∧ (zssNameOk r.name).isSome := by
  unfold zssDecodeRecord at h
  split at h
  · cases h
  · rename_i hg
    simp only at h
    split at h
    · cases h
    · rename_i hname
      cases h
      obtain ⟨h1, h2, h3, h4⟩ := not_badHeader hg hpos
      exact ⟨rfl, h1, h2, h3, h4, by simpa [Option.isSome_iff_ne_none] using hname⟩

/-- Decoding fails on a sector of zeros: a header is never the terminator. -/
theorem zssDecodeRecord_zero (sectors pos : ℕ) : zssDecodeRecord sectors zeroSector pos = none := by
  rw [zssDecodeRecord, if_pos]
  exact Or.inl ⟨by decide, by decide⟩

end ZealBringup.Store
