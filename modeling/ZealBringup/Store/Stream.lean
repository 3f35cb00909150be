import ZealBringup.Store.Catalog

/-!
# A streamed upload is a put

* `zssUpload_eq_zssPut` — however the data is cut into chunks, the stream issues the commands of
  `zss_put`, on any device.
* `zssPut_healthy` — on a healthy device a put with room succeeds.
* `upload_equals_put` — the main result, with what happens to a session whose bytes are not the
  announced ones.
-/

set_option maxRecDepth 10000

namespace ZealBringup.Store

open CrashDisk LastWrite

/-! ## The byte loop, one sector at a time -/

theorem zssStreamBytes_append (src src' : List UInt8) (s : ZssStream) (m : Machine) :
    zssStreamBytes (src ++ src') s m =
      match zssStreamBytes src s m with
      | (true, s', m') => zssStreamBytes src' s' m'
      | (false, s', m') => (false, s', m') := by
  induction src generalizing s m with
  | nil => rfl
  | cons byte src ih =>
    rw [List.cons_append, zssStreamBytes, zssStreamBytes]
    dsimp only
    split_ifs with hfull
    · rcases zssSectorWrite m _ _ with ⟨_ | _, m'⟩
      · rfl
      · exact ih _ _
    · exact ih _ _

/-- Bytes that do not fill the sector. -/
theorem zssStreamBytes_part {acc : List UInt8} (src : List UInt8) {s : ZssStream} (m : Machine)
    (hsector : s.sector = padSector acc) (hpos : s.written % 512 = acc.length)
    (hroom : acc.length + src.length < 512) :
    zssStreamBytes src s m = (true, { s with
      sector := padSector (acc ++ src)
      crc := src.foldl zssCrcStep s.crc
      written := s.written + src.length }, m) := by
  induction src generalizing acc s with
  | nil =>
    rw [List.append_nil, ← hsector]
    rfl
  | cons byte src ih =>
    rw [List.length_cons] at hroom
    have hstep : (fun i : Fin 512 => if i.val = s.written % 512 then byte else s.sector i) =
        padSector (acc ++ [byte]) := by
      rw [hpos, hsector, padSector_snoc]
    rw [zssStreamBytes]
    dsimp only
    rw [if_neg (by omega), hstep]
    have h := @ih (acc ++ [byte]) { s with
      sector := padSector (acc ++ [byte])
      crc := zssCrcStep s.crc byte
      written := s.written + 1 } rfl (by
        rw [List.length_append]
        show (s.written + 1) % 512 = acc.length + 1
        omega) (by
        rw [List.length_append]
        show acc.length + 1 + src.length < 512
        omega)
    rw [h, List.append_assoc, List.length_cons, List.foldl_cons]
    dsimp only
    rw [Nat.add_right_comm, Nat.add_assoc]
    rfl

/-- A stream between two sectors: `k` blocks are out. -/
def ZssStream.between (s : ZssStream) (k : ℕ) (crc : UInt32) : ZssStream :=
  { s with written := k * 512, crc := crc, sector := zeroSector }

/-- A whole block goes out with one command. -/
theorem zssStreamBytes_block {block : List UInt8} (hblock : block.length = 512) (s : ZssStream)
    (k : ℕ) (crc : UInt32) (m : Machine) :
    (zssStreamBytes block (s.between k crc) m).1 =
        (zssSectorWrite m (s.tail + 1 + k) (padSector block)).1 ∧
      (zssStreamBytes block (s.between k crc) m).2.2 =
        (zssSectorWrite m (s.tail + 1 + k) (padSector block)).2 ∧
      ((zssStreamBytes block (s.between k crc) m).1 = true →
        (zssStreamBytes block (s.between k crc) m).2.1 =
          s.between (k + 1) (block.foldl zssCrcStep crc)) := by
  obtain ⟨front, last, rfl⟩ : ∃ front last, block = front ++ [last] :=
    ⟨_, _, (List.dropLast_append_getLast (by rintro rfl; simp at hblock)).symm⟩
  have hfront : front.length = 511 := by simpa using hblock
  have hpartial := @zssStreamBytes_part [] front (s.between k crc) m rfl
    (Nat.mul_mod_left _ _) (by rw [hfront]; decide)
  have hstep : (fun i : Fin 512 => if i.val = (k * 512 + front.length) % 512 then last
      else padSector front i) = padSector (front ++ [last]) := by
    rw [hfront, show (k * 512 + 511) % 512 = 511 by omega, ← hfront, padSector_snoc]
  rw [zssStreamBytes_append, hpartial]
  dsimp only [ZssStream.between]
  rw [zssStreamBytes]
  dsimp only
  rw [List.nil_append, hstep, if_pos (by omega), show s.tail + (k * 512 + front.length + 1) / 512 =
    s.tail + 1 + k by omega]
  rcases zssSectorWrite m (s.tail + 1 + k) (padSector (front ++ [last])) with ⟨_ | _, m'⟩
  · exact ⟨rfl, rfl, fun h => nomatch h⟩
  · refine ⟨rfl, rfl, fun _ => ?_⟩
    show ({ s with written := _, crc := _, sector := _ } : ZssStream) = { s with written := _, crc := _, sector := _ }
    rw [List.foldl_append, show k * 512 + front.length + 1 = (k + 1) * 512 by omega]
    rfl

/-! ## The two loops -/

/-- What follows the byte loop. -/
def streamEnd : Bool × ZssStream × Machine → ℤ × Machine
  | (false, _, m) => (-1, m)
  | (true, s, m) => zssStreamFinish s m

/-- What follows the block loop of `zss_put`. -/
def putEnd (tail : ℕ) (name src : List UInt8) : Option UInt32 × Machine → ℤ × Machine
  | (none, m) => (-1, m)
  | (some crc, m) =>
      zssPublish m tail (tail + 1 + (src.length + 511) / 512)
        (fileHeader src.length (crc ^^^ 0xffffffff).toNat ((src.length + 511) / 512) name)

/-- The end of a complete stream whose checksum is right. -/
theorem zssStreamFinish_complete {s : ZssStream} {n checksum : ℕ} (m : Machine)
    (hlength : s.length = n) (hwritten : s.written = n) (hexpected : s.expectedCrc = checksum)
    (hcrc : (s.crc ^^^ 0xffffffff).toNat = checksum) :
    zssStreamFinish s m =
      if n % 512 ≠ 0 then
        match zssSectorWrite m (s.tail + 1 + n / 512) s.sector with
        | (false, m) => (-1, m)
        | (true, m) => zssPublish m s.tail (s.tail + 1 + (n + 511) / 512)
            (fileHeader n checksum ((n + 511) / 512) s.name)
      else zssPublish m s.tail (s.tail + 1 + (n + 511) / 512)
        (fileHeader n checksum ((n + 511) / 512) s.name) := by
  cases s
  dsimp only at hlength hwritten hexpected hcrc
  subst hlength hwritten hexpected
  exact if_neg (by rw [not_or]; exact ⟨not_not.2 rfl, not_not.2 hcrc⟩)

variable {s : ZssStream} {src : List UInt8}

/-- Behind the last full block: the rest, if there is one, is written at the end. -/
theorem streamEnd_last (hlength : s.length = src.length)
    (hexpected : s.expectedCrc = (zssCrc src).toNat) {crc : UInt32}
    (hcrc : crc = (src.take (src.length / 512 * 512)).foldl zssCrcStep 0xffffffff) (m : Machine) :
    streamEnd (zssStreamBytes (src.drop (src.length / 512 * 512))
        (s.between (src.length / 512) crc) m) =
      putEnd s.tail s.name src (zssPutBlocks src s.tail
        ((src.length + 511) / 512 - src.length / 512) (src.length / 512) crc m) := by
  have hrest : (src.drop (src.length / 512 * 512)).length = src.length % 512 := by
    rw [List.length_drop]
    omega
  have hall : (src.drop (src.length / 512 * 512)).foldl zssCrcStep crc =
      src.foldl zssCrcStep 0xffffffff := by
    rw [hcrc, ← List.foldl_append, List.take_append_drop]
  have hsum : ((src.foldl zssCrcStep 0xffffffff) ^^^ 0xffffffff).toNat = (zssCrc src).toNat := rfl
  have hwritten : src.length / 512 * 512 + src.length % 512 = src.length := Nat.div_add_mod' _ _
  rw [@zssStreamBytes_part [] _ (s.between (src.length / 512) crc) m rfl
    (Nat.mul_mod_left _ _) (by rw [hrest, List.length_nil, Nat.zero_add]; exact Nat.mod_lt _ (by decide)),
    List.nil_append, streamEnd]
  have hend := @zssStreamFinish_complete { s with
      sector := padSector (src.drop (src.length / 512 * 512))
      crc := (src.drop (src.length / 512 * 512)).foldl zssCrcStep crc
      written := src.length / 512 * 512 + (src.drop (src.length / 512 * 512)).length }
    src.length (zssCrc src).toNat m hlength (by dsimp only; rw [hrest, hwritten]) hexpected
    (by dsimp only; rw [hall, hsum])
  refine hend.trans ?_
  dsimp only
  by_cases hpart : src.length % 512 = 0
  · rw [if_neg (not_not.2 hpart), show (src.length + 511) / 512 - src.length / 512 = 0 by omega,
      zssPutBlocks, putEnd, hcrc, List.take_of_length_le (by omega), hsum]
  · have hblock : (src.drop (src.length / 512 * 512)).take 512 =
        src.drop (src.length / 512 * 512) := List.take_of_length_le (by omega)
    rw [if_pos hpart, show (src.length + 511) / 512 - src.length / 512 = 1 by omega, zssPutBlocks]
    rw [hblock, hall]
    rcases zssSectorWrite m (s.tail + 1 + src.length / 512) _ with ⟨_ | _, m'⟩
    · rfl
    · dsimp only
      rw [zssPutBlocks, putEnd, hsum]

/-- **The stream issues the commands of the put.** -/
theorem streamEnd_eq_putEnd {s : ZssStream} {src : List UInt8} (hlength : s.length = src.length)
    (hexpected : s.expectedCrc = (zssCrc src).toNat) {left b : ℕ} (hb : b + left = src.length / 512)
    {crc : UInt32} (hcrc : crc = (src.take (b * 512)).foldl zssCrcStep 0xffffffff) (m : Machine) :
    streamEnd (zssStreamBytes (src.drop (b * 512)) (s.between b crc) m) =
      putEnd s.tail s.name src
        (zssPutBlocks src s.tail ((src.length + 511) / 512 - b) b crc m) := by
  induction left generalizing b crc m with
  | zero =>
    rw [Nat.add_zero] at hb
    subst hb
    exact streamEnd_last hlength hexpected hcrc m
  | succ left ih =>
    have hroom : (b + 1) * 512 ≤ src.length := by omega
    have hblock : ((src.drop (b * 512)).take 512).length = 512 := by
      rw [List.length_take, List.length_drop]
      omega
    have hsplit : src.drop (b * 512) = (src.drop (b * 512)).take 512 ++ src.drop ((b + 1) * 512) := by
      rw [Nat.succ_mul, ← List.drop_drop, List.take_append_drop]
    have hcrc' : ((src.drop (b * 512)).take 512).foldl zssCrcStep crc =
        (src.take ((b + 1) * 512)).foldl zssCrcStep 0xffffffff := by
      rw [hcrc, ← List.foldl_append, Nat.succ_mul, List.take_add]
    obtain ⟨hok, hm, hs⟩ := zssStreamBytes_block hblock s b crc m
    have hput : (src.length + 511) / 512 - b = ((src.length + 511) / 512 - (b + 1)) + 1 := by omega
    rw [hput, zssPutBlocks, hsplit, zssStreamBytes_append, ← hsplit]
    rcases hbytes : zssStreamBytes ((src.drop (b * 512)).take 512) (s.between b crc) m with
      ⟨ok', s', m''⟩
    rcases hwrite : zssSectorWrite m (s.tail + 1 + b)
      (padSector ((src.drop (b * 512)).take 512)) with ⟨ok, m'⟩
    rw [hbytes, hwrite] at hok hm
    rw [hbytes] at hs
    dsimp only at hok hm hs
    subst hok hm
    cases ok' with
    | false => rfl
    | true =>
      rw [hs rfl]
      exact ih (by omega) hcrc' m''

/-! ## The chunks -/

variable {m m' : Machine}

theorem zssStreamBytes_length {s' : ZssStream} (h : zssStreamBytes src s m = (true, s', m')) :
    s'.length = s.length ∧ s'.written = s.written + src.length ∧ s'.name = s.name := by
  induction src generalizing s m with
  | nil =>
    cases h
    exact ⟨rfl, rfl, rfl⟩
  | cons byte src ih =>
    rw [zssStreamBytes] at h
    dsimp only at h
    split_ifs at h
    · rcases hw : zssSectorWrite m _ _ with ⟨_ | _, m₁⟩
      · rw [hw] at h
        cases h
      · rw [hw] at h
        obtain ⟨h1, h2, h3⟩ := ih h
        exact ⟨h1, by rw [h2, List.length_cons]; dsimp only; omega, h3⟩
    · obtain ⟨h1, h2, h3⟩ := ih h
      exact ⟨h1, by rw [h2, List.length_cons]; dsimp only; omega, h3⟩

/-- Where the data is cut does not matter. -/
theorem uploadChunks_flatten {chunks : List (List UInt8)}
    (hfit : s.written + chunks.flatten.length ≤ s.length) :
    uploadChunks chunks s m = streamEnd (zssStreamBytes chunks.flatten s m) := by
  induction chunks generalizing s m with
  | nil => rfl
  | cons c cs ih =>
    rw [List.flatten_cons, List.length_append] at hfit
    rw [uploadChunks, zssStreamWrite, if_neg (by omega), List.flatten_cons, zssStreamBytes_append]
    rcases hbytes : zssStreamBytes c s m with ⟨_ | _, s', m'⟩
    · dsimp only
      rw [if_pos ⟨by norm_num, by omega⟩]
      rfl
    · obtain ⟨hlength, hwritten, -⟩ := zssStreamBytes_length hbytes
      dsimp only
      rw [if_neg (by simp)]
      exact ih (by omega)

/-- **A streamed upload is a put**: the same result and the same machine, on any device. -/
theorem zssUpload_eq_zssPut (m : Machine) (name : List UInt8) (chunks : List (List UInt8)) :
    zssUpload m name chunks.flatten.length (zssCrc chunks.flatten).toNat chunks =
      zssPut m name chunks.flatten := by
  rw [zssUpload, zssStreamBegin, zssPut]
  split_ifs with hargs
  · rfl
  · rcases zssFind m none with ⟨scan, m'⟩
    dsimp only
    split_ifs with hscan hroom
    · rfl
    · rfl
    · dsimp only
      rw [uploadChunks_flatten (by dsimp only; omega)]
      have h := @streamEnd_eq_putEnd ⟨scan.tail, chunks.flatten.length, 0,
        (zssCrc chunks.flatten).toNat, 0xffffffff, name, zeroSector⟩ chunks.flatten rfl rfl
        _ 0 (Nat.zero_add _) 0xffffffff rfl m'
      rw [Nat.zero_mul, List.drop_zero, Nat.sub_zero] at h
      exact h

/-! ## A healthy device -/

/-- The device carries out every command, and the selected bank is on it. -/
structure Machine.Usable (m : Machine) : Prop where
  healthy : m.Healthy
  ready : m.vb.absoluteReady = true
  holds : m.zssBase + m.zssSectors ≤ m.vb.fullCapacity

theorem Ran.usable {evs : List (Event Sector)} (h : Ran m m' evs) (hm : m.Usable) : m'.Usable := by
  refine ⟨fun n => ?_, ?_, ?_⟩
  · rw [h.outcome]
    exact hm.healthy n
  · rw [h.vb]
    exact hm.ready
  · rw [h.base, h.sectors, h.vb]
    exact hm.holds

variable {tail : ℕ}

theorem Holds.usable {b : Bank} {rs : List LogRecord} (h : Holds m b rs tail) (hm : m.Healthy) :
    (m.select b).Usable :=
  ⟨hm, h.selects.bank.2.2.1, h.selects.bank.2.2.2⟩

namespace Machine.Usable

variable {m : Machine}

theorem sectorWrite (h : m.Usable) {sector : ℕ} (hlt : sector < m.zssSectors) (buf : Sector) :
    ∃ m', zssSectorWrite m sector buf = (true, m') ∧ m'.Usable ∧ m'.zssSectors = m.zssSectors := by
  have hin : m.vb.absoluteReady = true ∧ m.zssBase + sector < m.vb.fullCapacity :=
    ⟨h.ready, by have := h.holds; omega⟩
  rw [zssSectorWrite, if_pos hlt, zssBankWrite, virtioBlkWriteAbs, if_pos hin]
  dsimp only
  rw [h.healthy]
  exact ⟨_, rfl, ⟨h.healthy, h.ready, h.holds⟩, rfl⟩

theorem flush (h : m.Usable) :
    ∃ m', zssFlush m = (true, m') ∧ m'.Usable ∧ m'.zssSectors = m.zssSectors := by
  obtain ⟨evs, hran, -⟩ := zssFlush_ran m
  have hok := zssFlush_healthy h.healthy h.ready
  exact ⟨(zssFlush m).2, Prod.ext hok rfl, hran.usable h, hran.sectors⟩

theorem terminateLog (h : m.Usable) (next : ℕ) :
    ∃ m', zssTerminateLog m next = (true, m') ∧ m'.Usable ∧ m'.zssSectors = m.zssSectors := by
  rw [zssTerminateLog]
  split_ifs with hge
  · exact ⟨m, rfl, h, rfl⟩
  · exact h.sectorWrite (not_le.1 hge) zeroSector

theorem publish (h : m.Usable) {tail : ℕ} (hlt : tail < m.zssSectors) (next : ℕ)
    (header : Sector) : (zssPublish m tail next header).1 = 0 := by
  obtain ⟨m₁, h₁, hu₁, hs₁⟩ := h.terminateLog next
  obtain ⟨m₂, h₂, hu₂, hs₂⟩ := hu₁.flush
  obtain ⟨m₃, h₃, hu₃, -⟩ := hu₂.sectorWrite (by omega : tail < m₂.zssSectors) header
  have hu : m₃.catalogChanged.Usable := ⟨hu₃.healthy, hu₃.ready, hu₃.holds⟩
  obtain ⟨m₄, h₄, -⟩ := hu.flush
  rw [zssPublish, h₁]
  dsimp only
  rw [h₂]
  dsimp only
  rw [zssCommit, h₃]
  dsimp only
  rw [h₄]

theorem putBlocks (h : m.Usable) (src : List UInt8) {tail n b : ℕ} (crc : UInt32)
    (hroom : tail + 1 + (b + n) ≤ m.zssSectors) :
    ∃ crc' m', zssPutBlocks src tail n b crc m = (some crc', m') ∧ m'.Usable ∧
      m'.zssSectors = m.zssSectors := by
  induction n generalizing b crc m with
  | zero => exact ⟨crc, m, rfl, h, rfl⟩
  | succ n ih =>
    obtain ⟨m₁, h₁, hu₁, hs₁⟩ := h.sectorWrite (by omega : tail + 1 + b < m.zssSectors)
      (padSector ((src.drop (b * 512)).take 512))
    obtain ⟨crc', m', h', hu', hs'⟩ := ih hu₁ (((src.drop (b * 512)).take 512).foldl zssCrcStep crc)
      (b := b + 1) (by omega : tail + 1 + (b + 1 + n) ≤ m₁.zssSectors)
    refine ⟨crc', m', ?_, hu', hs'.trans hs₁⟩
    rw [zssPutBlocks, h₁]
    exact h'

end Machine.Usable

/-- **With room, a put on a healthy device succeeds.** -/
theorem zssPut_healthy {m : Machine} {b : Bank} {rs : List LogRecord} {tail : ℕ}
    (h : Holds m b rs tail) (hm : m.Healthy) {name src : List UInt8}
    (hname : (zssNameOk name).isSome) (hlen : 0 < src.length) (hmax : src.length ≤ zssMaxFile)
    (hroom : tail + 1 + (src.length + 511) / 512 ≤ b.sectors) : (zssPut m name src).1 = 0 := by
  have hargs : ¬(src.length = 0 ∨ src.length > zssMaxFile ∨ (zssNameOk name).isNone) := by
    rintro (h0 | hbig | hnone)
    · omega
    · omega
    · rw [Option.isNone_iff_eq_none] at hnone
      rw [hnone] at hname
      cases hname
  obtain ⟨crc, m₁, hblocks, hu, hs⟩ := @Machine.Usable.putBlocks _ (h.usable hm) src tail
    ((src.length + 511) / 512) 0 0xffffffff (by rw [Nat.zero_add]; exact hroom)
  rw [zssPut, if_neg hargs, zssFind_eq h (by simp)]
  dsimp only
  have hfit : ¬tail + 1 + (src.length + 511) / 512 > (m.select b).zssSectors := not_lt.2 hroom
  rw [if_neg (by simp [statusOf]), if_neg hfit, hblocks]
  have hsectors : m₁.zssSectors = b.sectors := hs
  exact hu.publish (by omega) _ _

/-! ## Sessions whose bytes are not the announced ones -/

/-- The writes of a session, in order; `none` when a sector could not be written.  A chunk that
does not fit is refused and leaves the stream as it is. -/
def writeChunks : List (List UInt8) → ZssStream → Machine → Option ZssStream × Machine
  | [], s, m => (some s, m)
  | c :: cs, s, m =>
      match zssStreamWrite s c m with
      | (code, s', m') =>
          if code ≠ 0 ∧ ¬c.length > s.length - s.written then (none, m') else writeChunks cs s' m'

theorem uploadChunks_eq (chunks : List (List UInt8)) (s : ZssStream) (m : Machine) :
    uploadChunks chunks s m =
      match writeChunks chunks s m with
      | (some s', m') => zssStreamFinish s' m'
      | (none, m') => (-1, m') := by
  induction chunks generalizing s m with
  | nil => rfl
  | cons c cs ih =>
    rw [uploadChunks, writeChunks]
    rcases hwrite : zssStreamWrite s c m with ⟨code, s', m'⟩
    dsimp only
    split_ifs with hfail
    · have hcode : code = -1 := by
        rw [zssStreamWrite, if_neg hfail.2] at hwrite
        rcases hbytes : zssStreamBytes c s m with ⟨_ | _, s'', m''⟩
        · rw [hbytes] at hwrite
          cases hwrite
          rfl
        · rw [hbytes] at hwrite
          cases hwrite
          exact absurd rfl hfail.1
      rw [hcode]
    · exact ih s' m'

variable {length expectedCrc : ℕ} {name : List UInt8}

theorem zssStreamWrite_inv {m₀ : Machine} {acc : List UInt8}
    (h : StreamInv m₀ m tail length expectedCrc name acc s)
    (hfit : src.length ≤ length - acc.length) :
    ((zssStreamWrite s src m).1 ≠ 0 ∧ ∃ evs, Ran m₀ (zssStreamWrite s src m).2.2 evs ∧
        ∀ e ∈ evs, e.Within (beyond m₀.zssBase m₀.zssSectors tail)) ∨
      ((zssStreamWrite s src m).1 = 0 ∧ StreamInv m₀ (zssStreamWrite s src m).2.2 tail length
        expectedCrc name (acc ++ src) (zssStreamWrite s src m).2.1) := by
  obtain ⟨hran, hgood⟩ := zssStreamBytes_inv src h
  rw [zssStreamWrite, h.length_eq, h.written_eq, if_neg (not_lt.2 hfit)]
  rcases hres : zssStreamBytes src s m with ⟨_ | _, s', m'⟩
  · rw [hres] at hran
    exact .inl ⟨by norm_num, hran⟩
  · rw [hres] at hgood
    exact .inr ⟨rfl, hgood rfl⟩

/-- The writes keep the invariant, with the bytes that were taken in. -/
theorem writeChunks_inv {m₀ : Machine} {acc : List UInt8} {chunks : List (List UInt8)}
    {s' : ZssStream} (h : StreamInv m₀ m tail length expectedCrc name acc s)
    (hwrites : writeChunks chunks s m = (some s', m')) :
    StreamInv m₀ m' tail length expectedCrc name (acceptedBytes length acc chunks) s' := by
  induction chunks generalizing acc s m with
  | nil =>
    cases hwrites
    exact h
  | cons c cs ih =>
    rw [writeChunks, h.length_eq, h.written_eq] at hwrites
    rw [acceptedBytes]
    by_cases hbig : c.length > length - acc.length
    · rw [zssStreamWrite, h.length_eq, h.written_eq, if_pos hbig] at hwrites
      dsimp only at hwrites
      rw [if_neg fun hh => hh.2 hbig] at hwrites
      rw [if_pos hbig]
      exact ih h hwrites
    · rw [if_neg hbig]
      have hstep := zssStreamWrite_inv h (not_lt.1 hbig)
      rcases hwrite : zssStreamWrite s c m with ⟨code, s₁, m₁⟩
      rw [hwrite] at hwrites hstep
      dsimp only at hwrites hstep
      rcases hstep with ⟨hcode, -⟩ | ⟨hcode, hinv⟩
      · rw [if_pos ⟨hcode, hbig⟩] at hwrites
        cases hwrites
      · rw [if_neg fun hh => hh.1 hcode] at hwrites
        exact ih hinv hwrites

/-- What is known when a session has begun. -/
theorem zssStreamBegin_some {code : ℤ}
    (h : zssStreamBegin m name length expectedCrc = (code, some s, m')) :
    0 < length ∧ length ≤ zssMaxFile ∧ (zssNameOk name).isSome ∧
      ∃ b rs tail, Holds m b rs tail ∧ m' = m.select b ∧
        tail + 1 + (length + 511) / 512 ≤ b.sectors ∧
        s = ⟨tail, length, 0, expectedCrc, 0xffffffff, name, zeroSector⟩ ∧
        StreamInv (m.select b) m' tail length expectedCrc name [] s := by
  rw [zssStreamBegin] at h
  split_ifs at h with hargs
  · cases h
  · simp only [not_or, not_lt, gt_iff_lt, Bool.not_eq_true] at hargs
    obtain ⟨hlen, hmax, hname⟩ := hargs
    have hstatus : 0 ≤ (zssFind m none).1.status := by
      by_contra hneg
      rcases hfind : zssFind m none with ⟨scan, m₁⟩
      rw [hfind] at h hneg
      dsimp only at h hneg
      rw [if_pos (not_le.1 hneg)] at h
      cases h
    obtain ⟨b, rs, tail, hlog⟩ := exists_holds hstatus
    rw [zssFind_eq hlog (by simp)] at h
    dsimp only at h
    rw [if_neg (by simp [statusOf])] at h
    split_ifs at h with hroom
    · cases h
    · cases h
      refine ⟨Nat.pos_of_ne_zero hlen, hmax, by simpa [Option.isSome_iff_ne_none] using hname, b,
        rs, tail, hlog, rfl, not_lt.1 hroom, rfl, ?_⟩
      exact ⟨rfl, rfl, rfl, rfl, rfl, rfl, rfl, ⟨[], Ran.refl _, by simp⟩, by simp⟩

/-- **A streamed upload equals a plain put.**  Cut in any way, data with its own length and
checksum has the result and leaves the machine of `zss_put`.  A session that took in other bytes
than announced ends with -4, and every name reads as before. -/
theorem upload_equals_put (m : Machine) (name : List UInt8) (chunks : List (List UInt8)) :
    zssUpload m name chunks.flatten.length (zssCrc chunks.flatten).toNat chunks =
        zssPut m name chunks.flatten ∧
      ∀ (length expectedCrc : ℕ) (s s' : ZssStream) (m₁ m₂ : Machine),
        zssStreamBegin m name length expectedCrc = (0, some s, m₁) →
        writeChunks chunks s m₁ = (some s', m₂) →
        (acceptedBytes length [] chunks).length ≠ length ∨
          (zssCrc (acceptedBytes length [] chunks)).toNat ≠ expectedCrc →
        (zssStreamFinish s' m₂).1 = -4 ∧
          ∀ n, zssLookup (zssStreamFinish s' m₂).2 n = zssLookup m n := by
  refine ⟨zssUpload_eq_zssPut m name chunks, ?_⟩
  intro length expectedCrc s s' m₁ m₂ hbegin hwrites hother
  obtain ⟨-, -, -, b, rs, tail, hlog, rfl, -, -, hinv⟩ := zssStreamBegin_some hbegin
  have hinv' := writeChunks_inv hinv hwrites
  have hcrc : (s'.crc ^^^ 0xffffffff).toNat =
      (zssCrc (acceptedBytes length [] chunks)).toNat := by
    rw [hinv'.crc_eq]
    rfl
  have hbad : s'.written ≠ s'.length ∨ (s'.crc ^^^ 0xffffffff).toNat ≠ s'.expectedCrc := by
    rw [hcrc, hinv'.written_eq, hinv'.length_eq, hinv'.expected_eq]
    exact hother
  rw [zssStreamFinish, if_pos hbad]
  obtain ⟨evs, hran, hin⟩ := hinv'.ran
  refine ⟨rfl, (hlog.beyond_tail hran.vb fun a ha => ?_).2⟩
  rw [hran.disk]
  exact replay_off hin _ ha

theorem zssStreamBegin_eq {m : Machine} {b : Bank} {rs : List LogRecord} {tail : ℕ}
    (h : Holds m b rs tail) {name : List UInt8} {length : ℕ} (expectedCrc : ℕ)
    (hname : (zssNameOk name).isSome) (hlen : 0 < length) (hmax : length ≤ zssMaxFile)
    (hroom : tail + 1 + (length + 511) / 512 ≤ b.sectors) :
    zssStreamBegin m name length expectedCrc =
      (0, some ⟨tail, length, 0, expectedCrc, 0xffffffff, name, zeroSector⟩, m.select b) := by
  have hargs : ¬(length = 0 ∨ length > zssMaxFile ∨ (zssNameOk name).isNone) := by
    rintro (h0 | hbig | hnone)
    · omega
    · omega
    · rw [Option.isNone_iff_eq_none] at hnone
      rw [hnone] at hname
      cases hname
  have hfit : ¬tail + 1 + (length + 511) / 512 > (m.select b).zssSectors := not_lt.2 hroom
  rw [zssStreamBegin, if_neg hargs, zssFind_eq h (by simp)]
  dsimp only
  rw [if_neg (by simp [statusOf]), if_neg hfit]

/-- Two bytes, one at a time, on a fresh image; and the same two where three were announced. -/
theorem upload_equals_put_freshDisk :
    (zssUpload (boot fullDevice (fun _ => .done) freshDisk) [65] 2 (zssCrc [7, 8]).toNat
        [[7], [8]] = zssPut (boot fullDevice (fun _ => .done) freshDisk) [65] [7, 8]) ∧
      ∃ s s' m₁ m₂, zssStreamBegin (boot fullDevice (fun _ => .done) freshDisk) [65] 3
          (zssCrc [7, 8]).toNat = (0, some s, m₁) ∧
        writeChunks [[7], [8]] s m₁ = (some s', m₂) ∧ (zssStreamFinish s' m₂).1 = -4 := by
  have hmain := upload_equals_put (boot fullDevice (fun _ => .done) freshDisk) [65] [[7], [8]]
  have hbegin := @zssStreamBegin_eq _ _ _ _
    (@holds_freshDisk fullDevice (fun _ => .done) rfl (le_refl _)) [65] 3 (zssCrc [7, 8]).toNat
    (by decide) (by decide) (by decide) (by decide)
  exact ⟨hmain.1, _, _, _, _, hbegin, rfl,
    (hmain.2 3 (zssCrc [7, 8]).toNat _ _ _ _ hbegin rfl (.inl (by decide))).1⟩

/-- A chunk too many is refused by its write, and the session can still be finished: here two
bytes are sent where one was announced. -/
theorem surplus_chunk_refused :
    ∃ s s' m₁ m₂, zssStreamBegin (boot fullDevice (fun _ => .done) freshDisk) [65] 1
        (zssCrc [7]).toNat = (0, some s, m₁) ∧
      writeChunks [[7], [8]] s m₁ = (some s', m₂) ∧ [[7], [8]].flatten.length ≠ 1 ∧
      (zssStreamFinish s' m₂).1 = 0 := by
  have hlog := @holds_freshDisk fullDevice (fun _ => .done) rfl (le_refl _)
  have hbegin := @zssStreamBegin_eq _ _ _ _ hlog [65] 1 (zssCrc [7]).toNat (by decide) (by decide)
    (by decide) (by decide)
  have hput := @zssPut_healthy _ _ _ _ hlog (fun _ => rfl) [65] [7] (by decide) (by decide)
    (by decide) (by decide)
  have hupload := zssUpload_eq_zssPut (boot fullDevice (fun _ => .done) freshDisk) [65] [[7]]
  rw [show [[7]].flatten = [(7 : UInt8)] from rfl] at hupload
  rw [← hupload, zssUpload, show [(7 : UInt8)].length = 1 from rfl, hbegin] at hput
  dsimp only at hput
  rw [uploadChunks_eq] at hput
  refine ⟨_, _, _, _, hbegin, ?_, by decide, hput⟩
  rfl

end ZealBringup.Store
