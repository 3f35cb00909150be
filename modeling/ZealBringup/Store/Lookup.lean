import ZealBringup.Store.Log

/-!
# What a reader sees: `zss_find` followed by `zss_read`

`zssLookup` is the guest's view of a name: the status of `zss_find` and, when the
name is found, its length and checksum, the result of `zss_read` and the bytes it
copied.  `zssLookup_eq` computes it from the log (`recordLookup`), and
`recordLookup_congr` says that it only depends on the sectors of the record.

The other half is about what is written: `dataBytes_blocks` — the blocks of
`zss_put`, read back, are the bytes they were cut from.
-/

namespace ZealBringup.Store

open CrashDisk LastWrite

/-! ## Reading a record -/

/-- The bytes of a record in a bank with contents `rd`. -/
def dataBytes (rd : ℕ → Sector) (e : ZssEntry) : List UInt8 :=
  ((List.range' 0 e.blocks).flatMap fun b => (rd (e.headerSector + 1 + b)).slice 0 512).take e.length

@[simp] theorem length_slice (s : Sector) (off n : ℕ) : (s.slice off n).length = n := by
  simp [Sector.slice]

theorem slice_take (s : Sector) {n k : ℕ} (h : k ≤ n) : (s.slice 0 n).take k = s.slice 0 k := by
  simp only [Sector.slice, ← List.map_take, List.take_range, min_eq_left h]

theorem zssReadLoop_eq {m : Machine} (hm : Readable m) (e : ZssEntry) (n b off : ℕ) (crc : UInt32)
    (dst : List UInt8) (hfit : e.headerSector + 1 + b + n ≤ m.zssSectors) :
    zssReadLoop m e n b off crc dst =
      (let bytes := ((List.range' b n).flatMap fun i =>
          (m.bank (e.headerSector + 1 + i)).slice 0 512).take (e.length - off)
       some (bytes.foldl zssCrcStep crc, dst ++ bytes)) := by
  induction n generalizing b off crc dst with
  | zero => simp [zssReadLoop]
  | succ n ih =>
    have hchunk : (if e.length - off > 512 then 512 else e.length - off) =
        min 512 (e.length - off) := by
      split <;> omega
    rw [zssReadLoop, zssSectorRead_eq hm (by omega)]
    simp only [hchunk]
    rw [ih _ _ _ _ (by omega)]
    have hsplit : ((List.range' b (n + 1)).flatMap fun i =>
        (m.bank (e.headerSector + 1 + i)).slice 0 512).take (e.length - off) =
        (m.bank (e.headerSector + 1 + b)).slice 0 (min 512 (e.length - off)) ++
          ((List.range' (b + 1) n).flatMap fun i =>
            (m.bank (e.headerSector + 1 + i)).slice 0 512).take
              (e.length - (off + min 512 (e.length - off))) := by
      have hhead : ((m.bank (e.headerSector + 1 + b)).slice 0 512).take (e.length - off) =
          (m.bank (e.headerSector + 1 + b)).slice 0 (min 512 (e.length - off)) := by
        rcases le_total (e.length - off) 512 with h | h
        · rw [min_eq_right h, slice_take _ h]
        · rw [min_eq_left h, List.take_of_length_le (by rw [length_slice]; exact h)]
      have hleft : e.length - off - 512 = e.length - (off + min 512 (e.length - off)) := by omega
      rw [List.range'_succ, List.flatMap_cons, List.take_append, length_slice, hhead, hleft]
    simp only [hsplit, List.foldl_append, List.append_assoc]

theorem zssRead_eq {m : Machine} (hm : Readable m) (e : ZssEntry) {cap : ℕ} (hcap : e.length < cap)
    (hfit : e.headerSector + 1 + e.blocks ≤ m.zssSectors) :
    zssRead m e cap =
      (if (zssCrc (dataBytes m.bank e)).toNat = e.checksum then 0 else -1, dataBytes m.bank e) := by
  rw [zssRead, if_neg (by omega), zssReadLoop_eq hm e _ _ _ _ _ (by omega)]
  rfl

/-- The bytes of a record only depend on its data sectors. -/
theorem dataBytes_congr {rd rd' : ℕ → Sector} {e e' : ZssEntry} (hl : e'.length = e.length)
    (hb : e'.blocks = e.blocks)
    (h : ∀ b < e.blocks, rd' (e'.headerSector + 1 + b) = rd (e.headerSector + 1 + b)) :
    dataBytes rd' e' = dataBytes rd e := by
  have hblocks : ((List.range' 0 e.blocks).flatMap fun b =>
      (rd' (e'.headerSector + 1 + b)).slice 0 512) =
      (List.range' 0 e.blocks).flatMap fun b => (rd (e.headerSector + 1 + b)).slice 0 512 := by
    refine List.flatMap_congr ?_
    intro b hmem
    have hlt : b < e.blocks := by
      obtain ⟨i, hi, rfl⟩ := List.mem_range'.1 hmem
      omega
    rw [h b hlt]
  rw [dataBytes, dataBytes, hl, hb, hblocks]

/-! ## The view of a name -/

/-- The guest's view of one name. -/
structure Lookup where
  /-- What `zss_find` returned. -/
  status : ℤ
  length : ℕ
  checksum : ℕ
  /-- What `zss_read` returned. -/
  readCode : ℤ
  bytes : List UInt8
  deriving DecidableEq, Repr

/-- `zss_find` and, when it reports a file, `zss_read` of all of it. -/
def zssLookup (m : Machine) (name : List UInt8) : Lookup :=
  match zssFind m (some name) with
  | (r, m) =>
      match r.out with
      | some e =>
          if r.status = 1 then
            ⟨1, e.length, e.checksum, (zssRead m e (e.length + 1)).1, (zssRead m e (e.length + 1)).2⟩
          else ⟨r.status, 0, 0, 0, []⟩
      | none => ⟨r.status, 0, 0, 0, []⟩

/-- The view of a file with these bytes. -/
def fileLookup (length checksum : ℕ) (bytes : List UInt8) : Lookup :=
  ⟨1, length, checksum, if (zssCrc bytes).toNat = checksum then 0 else -1, bytes⟩

/-- The view of a tombstoned name. -/
def deletedLookup : Lookup := ⟨-3, 0, 0, 0, []⟩

/-- The view of a name without records. -/
def absentLookup : Lookup := ⟨0, 0, 0, 0, []⟩

/-- The view of a name whose newest record is `r`. -/
def recordLookup (rd : ℕ → Sector) : Option LogRecord → Lookup
  | none => absentLookup
  | some r =>
      if r.deleted then deletedLookup
      else fileLookup r.entry.length r.entry.checksum (dataBytes rd r.entry)

/-- **The view of a name is the newest record of the log.** -/
theorem zssLookup_eq {m : Machine} {b : Bank} {rs : List LogRecord} {tail : ℕ}
    (h : Holds m b rs tail) {name : List UInt8} (hname : (zssNameOk name).isSome) :
    zssLookup m name =
      recordLookup (fun i => m.disk (b.base + i)) (lastWrite LogRecord.name name rs) := by
  rw [zssLookup, zssFind_eq h (fun n hn => by cases hn; exact hname)]
  simp only [Option.bind_some]
  cases hlast : lastWrite LogRecord.name name rs with
  | none => rfl
  | some r =>
    have hmem := (lastWrite_mem LogRecord.name hlast).1
    have hsec : b.sectors < 2 ^ 31 := by rw [h.selects.bank.2.1]; norm_num
    obtain ⟨-, h2, -⟩ := h.log.mem hsec hmem
    have hread := zssRead_eq h.selects.readable r.entry (Nat.lt_succ_self _)
      (le_trans h2 h.tail_le)
    by_cases hdel : r.deleted = true
    · have hst : statusOf 0 (some r) = -3 := if_pos hdel
      simp only [Option.map_some, hst, recordLookup, if_pos hdel]
      rfl
    · have hst : statusOf 0 (some r) = 1 := if_neg hdel
      simp only [Option.map_some, hst, recordLookup, if_neg hdel, if_true]
      rw [hread]
      rfl

/-- An invalid name is refused, whatever is on the disk. -/
theorem zssLookup_invalid {m : Machine} {name : List UInt8} (hname : zssNameOk name = none) :
    zssLookup m name = ⟨-1, 0, 0, 0, []⟩ := by
  rw [zssLookup, zssFind, if_pos (by simp [hname])]

/-- Records keep their view while their sectors keep their contents. -/
theorem recordLookup_congr {rd rd' : ℕ → Sector} {o : Option LogRecord}
    (h : ∀ r ∈ o, ∀ i, r.entry.headerSector < i → i < r.entry.headerSector + 1 + r.entry.blocks →
      rd' i = rd i) : recordLookup rd' o = recordLookup rd o := by
  cases o with
  | none => rfl
  | some r =>
    simp only [recordLookup]
    rw [dataBytes_congr rfl rfl fun b hb => h r rfl _ (by omega) (by omega)]

/-- Two machines that hold the same log over the same sectors agree on every name. -/
theorem zssLookup_congr {m m' : Machine} {b : Bank} {rs : List LogRecord} {tail : ℕ}
    (h : Holds m b rs tail) (h' : Holds m' b rs tail)
    (hagree : ∀ i < tail, m'.disk (b.base + i) = m.disk (b.base + i)) (name : List UInt8) :
    zssLookup m' name = zssLookup m name := by
  cases hname : zssNameOk name with
  | none => rw [zssLookup_invalid hname, zssLookup_invalid hname]
  | some n =>
    have hsome : (zssNameOk name).isSome := by rw [hname]; rfl
    rw [zssLookup_eq h hsome, zssLookup_eq h' hsome]
    refine recordLookup_congr fun r hr i _ hi => ?_
    have hsec : b.sectors < 2 ^ 31 := by rw [h.selects.bank.2.1]; norm_num
    obtain ⟨-, h2, -⟩ := h.log.mem hsec (lastWrite_mem LogRecord.name hr).1
    exact hagree i (by omega)

/-! ## Writing a record -/

/-- Block `b` of the data, as `zss_put` lays it out. -/
def dataBlock (src : List UInt8) (b : ℕ) : Sector := padSector ((src.drop (b * 512)).take 512)

theorem getD_drop_take (bs : List UInt8) (j : ℕ) {i : ℕ} (hi : i < 512) :
    ((bs.drop j).take 512).getD i 0 = bs.getD (j + i) 0 := by
  rw [List.getD_eq_getElem?_getD, List.getD_eq_getElem?_getD, List.getElem?_take_of_lt hi,
    List.getElem?_drop]

theorem get_dataBlock (src : List UInt8) (b : ℕ) {i : ℕ} (hi : i < 512) :
    (dataBlock src b).get i = src.getD (b * 512 + i) 0 := by
  rw [Sector.get, dif_pos hi, dataBlock, padSector, getD_drop_take _ _ hi]

theorem slice_padSector {bs : List UInt8} (h : bs.length ≤ 512) :
    (padSector bs).slice 0 512 = bs ++ List.replicate (512 - bs.length) 0 := by
  refine List.ext_getElem (by simp; omega) ?_
  intro i hi hi'
  have h512 : i < 512 := by simpa using hi
  simp only [Sector.slice, List.getElem_map, List.getElem_range, Nat.zero_add, Sector.get,
    dif_pos h512, padSector]
  by_cases hlt : i < bs.length
  · rw [List.getElem_append_left hlt, List.getD_eq_getElem _ _ hlt]
  · rw [List.getElem_append_right (by omega), List.getElem_replicate,
      List.getD_eq_default _ _ (by omega)]

theorem flatMap_dataBlock (src : List UInt8) (n b : ℕ) (hcover : src.length ≤ (b + n) * 512) :
    ((List.range' b n).flatMap fun i => (dataBlock src i).slice 0 512).take
      (src.length - b * 512) = src.drop (b * 512) := by
  induction n generalizing b with
  | zero => simp [List.drop_eq_nil_of_le (by simpa using hcover)]
  | succ n ih =>
    have hlen : ((src.drop (b * 512)).take 512).length ≤ 512 := by simp
    rw [List.range'_succ, List.flatMap_cons, List.take_append, length_slice, dataBlock,
      slice_padSector hlen]
    have hrest := ih (b + 1) (by rw [show b + 1 + n = b + (n + 1) by ring]; exact hcover)
    rw [show src.length - b * 512 - 512 = src.length - (b + 1) * 512 by omega, hrest,
      List.take_append]
    have hend : src.length - b * 512 ≤ 512 → src.length ≤ (b + 1) * 512 := by
      clear hrest ih hlen
      omega
    have hcut : ((src.drop (b * 512)).take 512).length = min 512 (src.length - b * 512) := by
      rw [List.length_take, List.length_drop]
    rcases le_total (src.length - b * 512) 512 with h | h
    · -- the last, partial block: the padding is cut off again
      rw [min_eq_right h] at hcut
      rw [hcut, Nat.sub_self, List.take_zero, List.append_nil,
        List.drop_eq_nil_of_le (hend h), List.append_nil,
        List.take_of_length_le (le_of_eq hcut),
        List.take_of_length_le (by rw [List.length_drop]; exact h)]
    · rw [min_eq_left h] at hcut
      rw [hcut, Nat.sub_self, List.replicate_zero, List.take_nil, List.append_nil,
        List.take_of_length_le (by rw [hcut]; exact h),
        show (b + 1) * 512 = b * 512 + 512 by ring, ← List.drop_drop]
      exact List.take_append_drop 512 _

/-- **What `zss_put` wrote is what `zss_read` returns.** -/
theorem dataBytes_blocks {rd : ℕ → Sector} {src : List UInt8} {tail checksum : ℕ}
    (h : ∀ b < (src.length + 511) / 512, rd (tail + 1 + b) = dataBlock src b) :
    dataBytes rd ⟨tail, src.length, checksum, (src.length + 511) / 512⟩ = src := by
  have hblocks := flatMap_dataBlock src ((src.length + 511) / 512) 0 (by omega)
  simp only [Nat.zero_mul, Nat.sub_zero, List.drop_zero] at hblocks
  have hsame : ((List.range' 0 ((src.length + 511) / 512)).flatMap fun b =>
      (rd (tail + 1 + b)).slice 0 512) =
      (List.range' 0 ((src.length + 511) / 512)).flatMap fun b => (dataBlock src b).slice 0 512 := by
    refine List.flatMap_congr ?_
    intro b hmem
    obtain ⟨i, hi, rfl⟩ := List.mem_range'.1 hmem
    rw [h _ (by omega)]
  rw [dataBytes, hsame, hblocks]

end ZealBringup.Store
