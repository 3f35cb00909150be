import ZealBringup.Store.Append

/-!
# Streamed uploads

`zss_stream_begin`, any number of `zss_stream_write`s and `zss_stream_finish`, in
the order `zrecv_serial` issues them.  A stream carries a partly filled sector
from one chunk to the next, so its invariant `StreamInv` says what the sector
holds and which blocks are already on the disk in terms of the bytes accepted so
far.  The result is `zssUpload_appends`: however the data was cut into chunks, the
upload is an append of one record with all of it.
-/

set_option maxRecDepth 10000

namespace ZealBringup.Store

open CrashDisk LastWrite

/-! ## The session -/

/-- The chunks of a session and its end.  A chunk that does not fit is refused
without any effect and the session may go on; after a failed sector write it is
given up, as in `zrecv_serial`. -/
def uploadChunks : List (List UInt8) → ZssStream → Machine → ℤ × Machine
  | [], s, m => zssStreamFinish s m
  | c :: cs, s, m =>
      match zssStreamWrite s c m with
      | (code, s', m) =>
          if code ≠ 0 ∧ ¬c.length > s.length - s.written then (code, m)
          else uploadChunks cs s' m

/-- A whole upload. -/
def zssUpload (m : Machine) (name : List UInt8) (length expectedCrc : ℕ)
    (chunks : List (List UInt8)) : ℤ × Machine :=
  match zssStreamBegin m name length expectedCrc with
  | (code, none, m) => (code, m)
  | (_, some s, m) => uploadChunks chunks s m

/-- The bytes the session takes in: chunks that would exceed the announced length are
left out. -/
def acceptedBytes (length : ℕ) : List UInt8 → List (List UInt8) → List UInt8
  | acc, [] => acc
  | acc, c :: cs =>
      if c.length > length - acc.length then acceptedBytes length acc cs
      else acceptedBytes length (acc ++ c) cs

/-! ## The invariant -/

/-- The stream has taken in `acc`: all full blocks are on the disk and the rest is in
the sector buffer. -/
structure StreamInv (m₀ m : Machine) (tail length expectedCrc : ℕ) (name acc : List UInt8)
    (s : ZssStream) : Prop where
  tail_eq : s.tail = tail
  length_eq : s.length = length
  expected_eq : s.expectedCrc = expectedCrc
  name_eq : s.name = name
  written_eq : s.written = acc.length
  crc_eq : s.crc = acc.foldl zssCrcStep 0xffffffff
  sector_eq : s.sector = padSector (acc.drop (acc.length / 512 * 512))
  ran : ∃ evs, Ran m₀ m evs ∧ ∀ e ∈ evs, e.Within (beyond m₀.zssBase m₀.zssSectors tail)
  blocks : ∀ k < acc.length / 512, m.disk (m₀.zssBase + (tail + 1 + k)) = dataBlock acc k

variable {acc : List UInt8}

/-- Full blocks do not change when more bytes follow. -/
theorem dataBlock_append (x : List UInt8) {k : ℕ} (h : k * 512 + 512 ≤ acc.length) :
    dataBlock (acc ++ x) k = dataBlock acc k := by
  have hstart : k * 512 ≤ acc.length := by omega
  have hfull : 512 ≤ (acc.drop (k * 512)).length := by
    rw [List.length_drop]
    omega
  rw [dataBlock, dataBlock, List.drop_append_of_le_length hstart,
    List.take_append_of_le_length hfull]

/-- Storing a byte behind the last one. -/
theorem padSector_snoc (bs : List UInt8) (byte : UInt8) :
    (fun i : Fin 512 => if i.val = bs.length then byte else padSector bs i)
      = padSector (bs ++ [byte]) := by
  funext i
  unfold padSector
  by_cases hi : i.val = bs.length
  · rw [if_pos hi, List.getD_append_right _ _ _ _ (by omega), hi]
    simp
  · rw [if_neg hi]
    rcases lt_or_gt_of_ne hi with hlt | hgt
    · rw [List.getD_append _ _ _ _ hlt]
    · rw [List.getD_eq_default _ _ (by omega), List.getD_eq_default _ _ (by simp; omega)]

theorem padSector_nil : padSector [] = zeroSector := rfl

/-- One byte of the loop of `zss_stream_write`: the buffer it leaves. -/
theorem sector_step {s : Sector} (h : s = padSector (acc.drop (acc.length / 512 * 512)))
    (byte : UInt8) :
    (fun i : Fin 512 => if i.val = acc.length % 512 then byte else s i)
      = padSector ((acc ++ [byte]).drop (acc.length / 512 * 512)) := by
  have hlen : (acc.drop (acc.length / 512 * 512)).length = acc.length % 512 := by
    rw [List.length_drop]
    omega
  rw [List.drop_append_of_le_length (by omega), ← padSector_snoc, hlen, h]

variable {m₀ m : Machine} {tail expectedCrc : ℕ} {name : List UInt8}

/-- **The byte loop keeps the invariant.**  Whatever happens only sectors beyond the
tail are written. -/
theorem zssStreamBytes_inv {length : ℕ} (src : List UInt8) {s : ZssStream}
    (h : StreamInv m₀ m tail length expectedCrc name acc s) :
    (∃ evs, Ran m₀ (zssStreamBytes src s m).2.2 evs ∧
      ∀ e ∈ evs, e.Within (beyond m₀.zssBase m₀.zssSectors tail)) ∧
    ((zssStreamBytes src s m).1 = true →
      StreamInv m₀ (zssStreamBytes src s m).2.2 tail length expectedCrc name (acc ++ src)
        (zssStreamBytes src s m).2.1) := by
  induction src generalizing acc s m with
  | nil => exact ⟨h.ran, fun _ => by rw [List.append_nil]; exact h⟩
  | cons byte src ih =>
    obtain ⟨evs, hran, hin⟩ := h.ran
    have hlen : (acc ++ [byte]).length = acc.length + 1 := by simp
    have hsector := sector_step h.sector_eq byte
    have hcrc : zssCrcStep s.crc byte = (acc ++ [byte]).foldl zssCrcStep 0xffffffff := by
      rw [List.foldl_append, ← h.crc_eq]
      rfl
    unfold zssStreamBytes
    simp only [h.written_eq]
    rw [show acc ++ byte :: src = (acc ++ [byte]) ++ src by simp, hsector]
    by_cases hfull : (acc.length + 1) % 512 = 0
    · -- the buffer is a full block: it goes out and a fresh one begins
      rw [if_pos hfull]
      have hk : (acc.length + 1) / 512 = acc.length / 512 + 1 := by omega
      have hblock : padSector ((acc ++ [byte]).drop (acc.length / 512 * 512))
          = dataBlock (acc ++ [byte]) (acc.length / 512) := by
        rw [dataBlock, List.take_of_length_le]
        rw [List.length_drop, hlen]
        omega
      rw [hblock, h.tail_eq, hk, show tail + (acc.length / 512 + 1) = tail + 1 + acc.length / 512
        by omega]
      obtain ⟨evs₁, hran₁, hcase₁, hok₁⟩ := zssSectorWrite_ran m (tail + 1 + acc.length / 512)
        (dataBlock (acc ++ [byte]) (acc.length / 512))
      rw [hran.base, hran.sectors] at hcase₁
      rw [hran.base] at hok₁
      have hin₁ : ∀ e ∈ evs ++ evs₁, e.Within (beyond m₀.zssBase m₀.zssSectors tail) := by
        intro e he
        rcases List.mem_append.1 he with he | he
        · exact hin e he
        · rcases hcase₁ with rfl | ⟨hlt, rfl⟩
          · simp at he
          · rw [List.mem_singleton.1 he]
            exact ⟨_, by omega, hlt, rfl⟩
      cases h₁ : zssSectorWrite m (tail + 1 + acc.length / 512)
          (dataBlock (acc ++ [byte]) (acc.length / 512)) with
      | mk ok₁ m₁ =>
        rw [h₁] at hran₁ hok₁
        cases ok₁ with
        | false => exact ⟨⟨_, hran.trans hran₁, hin₁⟩, by simp⟩
        | true =>
          refine ih ⟨rfl, h.length_eq, h.expected_eq, h.name_eq, hlen.symm, hcrc, ?_,
            ⟨_, hran.trans hran₁, hin₁⟩, ?_⟩
          · rw [hlen, hk, List.drop_eq_nil_of_le (by rw [hlen]; omega), padSector_nil]
          · intro k hlt
            rw [hlen, hk] at hlt
            rw [hran₁.disk, hok₁ rfl]
            by_cases hkeq : k = acc.length / 512
            · subst hkeq
              simp [Event.apply]
            · rw [replay_cons, replay_nil, Event.apply, Function.update_of_ne (by omega),
                h.blocks k (by omega), dataBlock_append _ (by omega)]
    · rw [if_neg hfull]
      have hk : (acc.length + 1) / 512 = acc.length / 512 := by omega
      refine ih ⟨h.tail_eq, h.length_eq, h.expected_eq, h.name_eq, hlen.symm, hcrc, ?_,
        ⟨evs, hran, hin⟩, ?_⟩
      · rw [hlen, hk]
      · intro k hlt
        rw [hlen, hk] at hlt
        rw [h.blocks k hlt, dataBlock_append _ (by omega)]

/-! ## The end of the session -/

/-- The record an upload publishes at `tail`. -/
def uploadRecord (tail length expectedCrc : ℕ) (name : List UInt8) : LogRecord :=
  ⟨⟨tail, length, expectedCrc, (length + 511) / 512⟩, name, false⟩

/-- With every block in place, publishing the header appends the upload. -/
theorem publish_upload {n : ℕ} {evs : List (Event Sector)} (hran : Ran m₀ m evs)
    (hin : ∀ e ∈ evs, e.Within (beyond m₀.zssBase m₀.zssSectors tail))
    (hname : zssNameOk name = some n) (hlen : 0 < acc.length) (hmax : acc.length ≤ zssMaxFile)
    (hfit : tail + 1 + (acc.length + 511) / 512 ≤ m₀.zssSectors) (hsec : m₀.zssSectors < 2 ^ 32)
    (hcrc : (zssCrc acc).toNat = expectedCrc)
    (hblocks : ∀ k < (acc.length + 511) / 512, m.disk (m₀.zssBase + (tail + 1 + k)) = dataBlock acc k) :
    
    Appends m₀
      (zssPublish m tail (tail + 1 + (acc.length + 511) / 512)
        (fileHeader acc.length expectedCrc ((acc.length + 511) / 512) name)).2 tail
      (zssPublish m tail (tail + 1 + (acc.length + 511) / 512)
        (fileHeader acc.length expectedCrc ((acc.length + 511) / 512) name)).1
      (uploadRecord tail acc.length expectedCrc name)
      (fileLookup acc.length expectedCrc acc) := by
  refine @zssPublish_appends _ _ _ _ (uploadRecord tail acc.length expectedCrc name) _ _ hran hin
    hfit ?_ rfl ?_ (nul_not_mem_fileHeader hname) (if_pos hcrc)
  · exact zssDecodeRecord_fileHeader hname hlen hmax (by rw [← hcrc]; exact (zssCrc acc).toNat_lt)
      hfit hsec
  · have hbytes := @dataBytes_blocks (fun i => m.disk (m₀.zssBase + i)) acc tail expectedCrc hblocks
    rw [recordLookup, if_neg (by simp [uploadRecord])]
    exact congrArg (fileLookup acc.length expectedCrc) hbytes

theorem zssStreamFinish_appends {length n : ℕ} {s : ZssStream}
    (h : StreamInv m₀ m tail length expectedCrc name acc s) (hname : zssNameOk name = some n)
    (hlen : 0 < length) (hmax : length ≤ zssMaxFile)
    (hfit : tail + 1 + (length + 511) / 512 ≤ m₀.zssSectors) (hsec : m₀.zssSectors < 2 ^ 32) :
    Appends m₀ (zssStreamFinish s m).2 tail (zssStreamFinish s m).1
      (uploadRecord tail length expectedCrc name) (fileLookup length expectedCrc acc) := by
  obtain ⟨evs, hran, hin⟩ := h.ran
  unfold zssStreamFinish
  split
  · exact Appends.failed evs hran hin (by norm_num)
  · rename_i hok
    simp only [not_or, not_not] at hok
    obtain ⟨hw, hc⟩ := hok
    rw [h.written_eq, h.length_eq] at hw
    rw [h.crc_eq, h.expected_eq] at hc
    subst hw
    simp only [h.written_eq, h.length_eq, h.expected_eq, h.name_eq, h.tail_eq]
    split
    · -- the last block is only partly filled
      rename_i hpart
      have hblock : s.sector = dataBlock acc (acc.length / 512) := by
        rw [h.sector_eq, dataBlock, List.take_of_length_le]
        rw [List.length_drop]
        omega
      rw [hblock]
      obtain ⟨evs₁, hran₁, hcase₁, hok₁⟩ := zssSectorWrite_ran m (tail + 1 + acc.length / 512)
        (dataBlock acc (acc.length / 512))
      rw [hran.base, hran.sectors] at hcase₁
      rw [hran.base] at hok₁
      have hin₁ : ∀ e ∈ evs ++ evs₁, e.Within (beyond m₀.zssBase m₀.zssSectors tail) := by
        intro e he
        rcases List.mem_append.1 he with he | he
        · exact hin e he
        · rcases hcase₁ with rfl | ⟨hlt, rfl⟩
          · simp at he
          · rw [List.mem_singleton.1 he]
            exact ⟨_, by omega, hlt, rfl⟩
      cases h₁ : zssSectorWrite m (tail + 1 + acc.length / 512)
          (dataBlock acc (acc.length / 512)) with
      | mk ok₁ m₁ =>
        rw [h₁] at hran₁ hok₁
        cases ok₁ with
        | false => exact Appends.failed _ (hran.trans hran₁) hin₁ (by norm_num)
        | true =>
          refine publish_upload (hran.trans hran₁) hin₁ hname hlen hmax hfit hsec hc ?_
          intro k hlt
          rw [hran₁.disk, hok₁ rfl, replay_cons, replay_nil, Event.apply]
          by_cases hkeq : k = acc.length / 512
          · subst hkeq
            rw [Function.update_self]
          · rw [Function.update_of_ne (by omega), h.blocks k (by omega)]
    · refine publish_upload hran hin hname hlen hmax hfit hsec hc ?_
      intro k hlt
      exact h.blocks k (by omega)

theorem uploadChunks_appends {m₀ m : Machine} {tail length expectedCrc n : ℕ}
    {name acc : List UInt8} (chunks : List (List UInt8)) {s : ZssStream}
    (h : StreamInv m₀ m tail length expectedCrc name acc s) (hname : zssNameOk name = some n)
    (hlen : 0 < length) (hmax : length ≤ zssMaxFile)
    (hfit : tail + 1 + (length + 511) / 512 ≤ m₀.zssSectors) (hsec : m₀.zssSectors < 2 ^ 32) :
    Appends m₀ (uploadChunks chunks s m).2 tail (uploadChunks chunks s m).1
      (uploadRecord tail length expectedCrc name)
      (fileLookup length expectedCrc (acceptedBytes length acc chunks)) := by
  induction chunks generalizing acc s m with
  | nil => exact zssStreamFinish_appends h hname hlen hmax hfit hsec
  | cons c cs ih =>
    unfold uploadChunks zssStreamWrite acceptedBytes
    rw [h.length_eq, h.written_eq]
    by_cases hbig : c.length > length - acc.length
    · rw [if_pos hbig, if_pos hbig]
      simp only [hbig, not_true_eq_false, and_false, if_false]
      exact ih h
    · rw [if_neg hbig, if_neg hbig]
      obtain ⟨hfail, hgood⟩ := zssStreamBytes_inv c h
      cases hres : zssStreamBytes c s m with
      | mk ok rest =>
        obtain ⟨s', m'⟩ := rest
        rw [hres] at hfail hgood
        cases ok with
        | false =>
          obtain ⟨evs, hran, hin⟩ := hfail
          simp only [hbig, not_false_eq_true, and_true]
          rw [if_pos (by norm_num)]
          exact Appends.failed evs hran hin (by norm_num)
        | true =>
          simp only [ne_eq, not_true_eq_false, false_and, if_false]
          exact ih (hgood rfl)

/-- **An upload is an append**, whatever the chunks. -/
theorem zssUpload_appends {b : Bank} {rs : List LogRecord} (h : Holds m b rs tail)
    (name : List UInt8) (length expectedCrc : ℕ) (chunks : List (List UInt8)) :
    (zssUpload m name length expectedCrc chunks).2 = m ∧
      (zssUpload m name length expectedCrc chunks).1 ≠ 0 ∨
    Appends (m.select b) (zssUpload m name length expectedCrc chunks).2 tail
      (zssUpload m name length expectedCrc chunks).1
      (uploadRecord tail length expectedCrc name)
      (fileLookup length expectedCrc (acceptedBytes length [] chunks)) := by
  unfold zssUpload zssStreamBegin
  by_cases hargs : length = 0 ∨ length > zssMaxFile ∨ (zssNameOk name).isNone
  · rw [if_pos hargs]
    exact Or.inl ⟨rfl, by norm_num⟩
  · right
    rw [if_neg hargs]
    simp only [not_or, not_lt, gt_iff_lt] at hargs
    obtain ⟨hlen, hmax, hok⟩ := hargs
    obtain ⟨n, hname⟩ : ∃ n, zssNameOk name = some n :=
      Option.isSome_iff_exists.1 (by simpa [Option.isSome_iff_ne_none] using hok)
    have hsec : b.sectors = 65536 := h.selects.bank.2.1
    rw [zssFind_eq h (by simp)]
    simp only [Option.bind_none, statusOf, lt_irrefl, if_false]
    rw [show (m.select b).zssSectors = b.sectors from rfl]
    by_cases hfit : tail + 1 + (length + 511) / 512 > b.sectors
    · rw [if_pos hfit]
      exact Appends.early (by norm_num)
    · rw [if_neg hfit]
      refine @uploadChunks_appends _ _ tail _ _ n _ [] chunks _ ?_ hname (by omega) hmax
        (show _ ≤ b.sectors by omega) (show b.sectors < _ by omega)
      exact ⟨rfl, rfl, rfl, rfl, rfl, rfl, rfl, ⟨[], Ran.refl _, by simp⟩, by simp⟩

end ZealBringup.Store
