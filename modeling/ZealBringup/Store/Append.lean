import ZealBringup.Store.Lookup

/-!
# Appending to the log

The three ways to append — `zss_put`, `zss_delete` and a streamed upload — end in
the same place, `zss_publish`, and differ only in the data sectors they write
first.  This file says once what such a call does to the device.

* `Ran` — a part of a call issued these events and nothing else.
* `Appends` — what a whole append may do: either it wrote only beyond the tail
  and reported a failure, or it published one record.
* `zssPut_appends`, `zssDelete_appends`, `zssUpload_appends` — the three calls
  are such appends, and the record they publish is the one they were asked for.
-/

namespace ZealBringup.Store

open CrashDisk LastWrite

/-! ## Parts of a call -/

/-- From `m` to `m'` the device carried out `evs`; the selected bank is the same. -/
structure Ran (m m' : Machine) (evs : List (Event Sector)) : Prop where
  vb : m'.vb = m.vb
  outcome : m'.outcome = m.outcome
  base : m'.zssBase = m.zssBase
  sectors : m'.zssSectors = m.zssSectors
  generation : m'.zssGeneration = m.zssGeneration
  trace : m'.trace = m.trace ++ evs
  disk : m'.disk = replay evs m.disk

namespace Ran

variable {m m' m'' : Machine} {u v : List (Event Sector)}

theorem refl (m : Machine) : Ran m m [] := ⟨rfl, rfl, rfl, rfl, rfl, by simp, rfl⟩

theorem trans (h : Ran m m' u) (h' : Ran m' m'' v) : Ran m m'' (u ++ v) where
  vb := h'.vb.trans h.vb
  outcome := h'.outcome.trans h.outcome
  base := h'.base.trans h.base
  sectors := h'.sectors.trans h.sectors
  generation := h'.generation.trans h.generation
  trace := by rw [h'.trace, h.trace, List.append_assoc]
  disk := by rw [h'.disk, h.disk, replay_append]

/-- The selection outlives a part of a call. -/
theorem select {b : Bank} (h : Ran m m' u) (hsel : m.select b = m) : m'.select b = m' := by
  have hb : m.zssBase = b.base ∧ m.zssSectors = b.sectors ∧ m.zssGeneration = b.generation := by
    rw [← hsel]
    exact ⟨rfl, rfl, rfl⟩
  rw [Machine.select, ← hb.1, ← hb.2.1, ← hb.2.2, ← h.base, ← h.sectors, ← h.generation]

end Ran

/-- A write either took effect or not, and if it reports success it did. -/
theorem virtioBlkWriteAbs_ran (m : Machine) (lba : ℕ) (buf : Sector) :
    ∃ evs, Ran m (virtioBlkWriteAbs m lba buf).2 evs ∧ (evs = [] ∨ evs = [Event.write lba buf]) ∧
      ((virtioBlkWriteAbs m lba buf).1 = true → evs = [Event.write lba buf]) := by
  unfold virtioBlkWriteAbs
  split
  · simp only
    cases m.outcome m.commands with
    | done => exact ⟨_, ⟨rfl, rfl, rfl, rfl, rfl, rfl, rfl⟩, Or.inr rfl, fun _ => rfl⟩
    | lost => exact ⟨[], ⟨rfl, rfl, rfl, rfl, rfl, by simp, rfl⟩, Or.inl rfl, by simp⟩
    | landed => exact ⟨_, ⟨rfl, rfl, rfl, rfl, rfl, rfl, rfl⟩, Or.inr rfl, by simp⟩
  · exact ⟨[], Ran.refl m, Or.inl rfl, by simp⟩

/-- The device carries out every command. -/
def Machine.Healthy (m : Machine) : Prop := ∀ n, m.outcome n = .done

variable {m : Machine}

/-- On such a device a write that fails was never issued. -/
theorem virtioBlkWriteAbs_healthy (h : m.Healthy) {lba : ℕ} {buf : Sector}
    (hfail : (virtioBlkWriteAbs m lba buf).1 = false) : (virtioBlkWriteAbs m lba buf).2 = m := by
  unfold virtioBlkWriteAbs at hfail ⊢
  split at hfail
  · rw [h] at hfail
    cases hfail
  · rename_i hno
    rw [if_neg hno]

theorem zssFlush_healthy (h : m.Healthy) (hready : m.vb.absoluteReady = true) :
    (zssFlush m).1 = true := by
  unfold zssFlush virtioBlkFlushAbs
  split
  · rename_i hf
    rw [if_pos ⟨hready, hf⟩, h]
  · rfl

/-- A flush that reports success is in the history; one that fails is not. -/
theorem virtioBlkFlushAbs_ran (m : Machine) :
    Ran m (virtioBlkFlushAbs m).2 (if (virtioBlkFlushAbs m).1 then [Event.flush] else []) := by
  unfold virtioBlkFlushAbs
  split
  · cases m.outcome m.commands with
    | done => exact ⟨rfl, rfl, rfl, rfl, rfl, rfl, rfl⟩
    | lost => exact ⟨rfl, rfl, rfl, rfl, rfl, by simp, rfl⟩
    | landed => exact ⟨rfl, rfl, rfl, rfl, rfl, by simp, rfl⟩
  · exact Ran.refl m

theorem zssSectorWrite_ran (m : Machine) (sector : ℕ) (buf : Sector) :
    ∃ evs, Ran m (zssSectorWrite m sector buf).2 evs ∧
      (evs = [] ∨ sector < m.zssSectors ∧ evs = [Event.write (m.zssBase + sector) buf]) ∧
      ((zssSectorWrite m sector buf).1 = true →
        evs = [Event.write (m.zssBase + sector) buf]) := by
  unfold zssSectorWrite zssBankWrite
  by_cases hlt : sector < m.zssSectors
  · rw [if_pos hlt]
    obtain ⟨evs, h1, h2, h3⟩ := virtioBlkWriteAbs_ran m (m.zssBase + sector) buf
    exact ⟨evs, h1, h2.imp_right fun h => ⟨hlt, h⟩, h3⟩
  · rw [if_neg hlt]
    exact ⟨[], Ran.refl m, Or.inl rfl, by simp⟩

/-- The sectors of a bank behind its tail. -/
def beyond (base sectors tail : ℕ) : Set ℕ := {a | ∃ i, tail < i ∧ i < sectors ∧ a = base + i}

variable {tail : ℕ}

theorem not_mem_beyond {base sectors i : ℕ} (h : i ≤ tail) :
    base + i ∉ beyond base sectors tail := by
  rintro ⟨j, h1, -, h2⟩
  omega

theorem zssTerminateLog_ran (m : Machine) {next : ℕ} (hnext : tail < next) :
    ∃ evs, Ran m (zssTerminateLog m next).2 evs ∧
      (∀ e ∈ evs, e.Within (beyond m.zssBase m.zssSectors tail)) ∧
      (∀ e ∈ evs, e.Within {m.zssBase + next}) ∧
      ((zssTerminateLog m next).1 = true → next < m.zssSectors →
        (zssTerminateLog m next).2.disk (m.zssBase + next) = zeroSector) := by
  unfold zssTerminateLog
  by_cases hge : next ≥ m.zssSectors
  · rw [if_pos hge]
    exact ⟨[], Ran.refl m, by simp, by simp, fun _ h => by omega⟩
  · rw [if_neg hge]
    obtain ⟨evs, h1, h2, h3⟩ := zssSectorWrite_ran m next zeroSector
    refine ⟨evs, h1, ?_, ?_, ?_⟩
    · rcases h2 with rfl | ⟨hlt, rfl⟩
      · simp
      · intro e he
        rw [List.mem_singleton.1 he]
        exact ⟨next, hnext, hlt, rfl⟩
    · rcases h2 with rfl | ⟨-, rfl⟩
      · simp
      · intro e he
        rw [List.mem_singleton.1 he]
        exact rfl
    · intro hok _
      rw [h1.disk, h3 hok]
      simp [Event.apply]

theorem zssFlush_ran (m : Machine) :
    ∃ evs, Ran m (zssFlush m).2 evs ∧ (∀ e ∈ evs, e = Event.flush) ∧
      ((zssFlush m).1 = true → evs = if m.vb.flushSupported then [Event.flush] else []) ∧
      ((zssFlush m).1 = false → evs = [] ∧ m.vb.flushSupported = true) := by
  unfold zssFlush
  split
  · rename_i hf
    have h := virtioBlkFlushAbs_ran m
    refine ⟨_, h, ?_, ?_, ?_⟩
    · split <;> simp
    · intro hok
      rw [if_pos hok]
    · intro hok
      rw [if_neg (by simp [hok])]
      exact ⟨rfl, hf⟩
  · exact ⟨[], Ran.refl m, by simp, fun _ => rfl, by simp⟩

/-! ## What an append does -/

/-- What a call that appends at `tail` of the selected bank may do.  Either nothing
became visible, the call failed and only sectors beyond the tail were touched; or the
header of the record `r` was written after `body`, and with it the record is there.
`post` is the view of its name from then on. -/
inductive Appends (m m' : Machine) (tail : ℕ) (code : ℤ) (r : LogRecord) (post : Lookup) : Prop
  | failed (evs : List (Event Sector)) (ran : Ran m m' evs)
      (within : ∀ e ∈ evs, e.Within (beyond m.zssBase m.zssSectors tail)) (hcode : code ≠ 0)
  | published (body : List (Event Sector)) (header : Sector) (flushed : Bool)
      (ran : Ran m m'
        (publication m.vb.flushSupported body (m.zssBase + tail) header flushed))
      (within : ∀ e ∈ body, e.Within (beyond m.zssBase m.zssSectors tail))
      (room : tail < m.zssSectors)
      (decodes : zssDecodeRecord m.zssSectors header tail = some r)
      (ended : tail + 1 + r.entry.blocks < m.zssSectors →
        replay body m.disk (m.zssBase + (tail + 1 + r.entry.blocks)) = zeroSector)
      (view : recordLookup (fun i => replay body m.disk (m.zssBase + i)) (some r) = post)
      (hcode : code = 0 → flushed = m.vb.flushSupported)
      (healthy : m.Healthy → m.vb.absoluteReady = true → code = 0)
      (clean : 0 ∉ nameField header) (verified : post.readCode = 0)

/-- The header went out or not; if the call returns 0 it did, and so did the flush. -/
theorem zssCommit_ran (m : Machine) (tail : ℕ) (header : Sector) :
    ∃ evs, Ran m (zssCommit m tail header).2 evs ∧
      (evs = [] ∧ (zssCommit m tail header).1 ≠ 0 ∨
        ∃ flushed : Bool, evs = Event.write (m.zssBase + tail) header ::
            (if flushed then [Event.flush] else []) ∧
          ((zssCommit m tail header).1 = 0 → flushed = m.vb.flushSupported) ∧
          (m.Healthy → m.vb.absoluteReady = true → (zssCommit m tail header).1 = 0)) := by
  obtain ⟨evs₁, hran₁, hcase₁, hok₁⟩ := zssSectorWrite_ran m tail header
  unfold zssCommit
  cases h₁ : zssSectorWrite m tail header with
  | mk ok₁ m₁ =>
    rw [h₁] at hran₁ hok₁
    cases ok₁ with
    | false =>
      -- a failed write of the header may have landed all the same
      refine ⟨evs₁, hran₁, ?_⟩
      rcases hcase₁ with rfl | ⟨hlt, rfl⟩
      · exact Or.inl ⟨rfl, by norm_num⟩
      · refine Or.inr ⟨false, rfl, by norm_num, fun hhealthy _ => ?_⟩
        have hsame : m₁ = m := by
          rw [zssSectorWrite, if_pos hlt, zssBankWrite] at h₁
          have hkeep := @virtioBlkWriteAbs_healthy m hhealthy (m.zssBase + tail) header (by rw [h₁])
          rw [h₁] at hkeep
          exact hkeep
        rw [hsame] at hran₁
        exact absurd hran₁.trace (by simp)
    | true =>
      obtain rfl := hok₁ rfl
      obtain ⟨evs₂, hran₂, -, hok₂, hno₂⟩ := zssFlush_ran m₁.catalogChanged
      have hran : Ran m m₁.catalogChanged [Event.write (m.zssBase + tail) header] :=
        ⟨hran₁.vb, hran₁.outcome, hran₁.base, hran₁.sectors, hran₁.generation, hran₁.trace,
          hran₁.disk⟩
      rw [hran.vb] at hok₂
      simp only
      cases h₂ : zssFlush m₁.catalogChanged with
      | mk ok₂ m₂ =>
        rw [h₂] at hran₂ hok₂ hno₂
        cases ok₂ with
        | false =>
          obtain rfl := (hno₂ rfl).1
          refine ⟨_, hran.trans hran₂, Or.inr ⟨false, rfl, by norm_num, fun hhealthy hready => ?_⟩⟩
          have hgo : (zssFlush m₁.catalogChanged).1 = true :=
            zssFlush_healthy (fun n => by rw [hran.outcome]; exact hhealthy n)
              (by rw [hran.vb]; exact hready)
          rw [h₂] at hgo
          cases hgo
        | true =>
          obtain rfl := hok₂ rfl
          exact ⟨_, hran.trans hran₂,
            Or.inr ⟨m.vb.flushSupported, rfl, fun _ => rfl, fun _ _ => rfl⟩⟩

/-- **The end of every append.**  Once the data of the record is in place beyond the
tail, `zss_publish` is an append of that record. -/
theorem zssPublish_appends {m₀ : Machine} {evs : List (Event Sector)} {r : LogRecord}
    {post : Lookup} {header : Sector} (hran : Ran m₀ m evs)
    (hwithin : ∀ e ∈ evs, e.Within (beyond m₀.zssBase m₀.zssSectors tail))
    (hroom : tail + 1 + r.entry.blocks ≤ m₀.zssSectors)
    (hdec : zssDecodeRecord m₀.zssSectors header tail = some r)
    (hpos : r.entry.headerSector = tail)
    (hview : recordLookup (fun i => m.disk (m₀.zssBase + i)) (some r) = post)
    (hclean : 0 ∉ nameField header) (hverified : post.readCode = 0) :
    Appends m₀ (zssPublish m tail (tail + 1 + r.entry.blocks) header).2 tail
      (zssPublish m tail (tail + 1 + r.entry.blocks) header).1 r post := by
  obtain ⟨evs₁, hran₁, hin₁, hat₁, hz₁⟩ :=
    zssTerminateLog_ran m (show tail < tail + 1 + r.entry.blocks by omega)
  rw [hran.base, hran.sectors] at hin₁ hz₁
  rw [hran.base] at hat₁
  have hbody : ∀ e ∈ evs ++ evs₁, e.Within (beyond m₀.zssBase m₀.zssSectors tail) := by
    intro e he
    rcases List.mem_append.1 he with h | h
    · exact hwithin e h
    · exact hin₁ e h
  unfold zssPublish
  cases h₁ : zssTerminateLog m (tail + 1 + r.entry.blocks) with
  | mk ok₁ m₁ =>
    rw [h₁] at hran₁ hz₁
    cases ok₁ with
    | false => exact Appends.failed _ (hran.trans hran₁) hbody (by norm_num)
    | true =>
      obtain ⟨evs₂, hran₂, hfl₂, hok₂, -⟩ := zssFlush_ran m₁
      rw [hran₁.vb, hran.vb] at hok₂
      simp only
      cases h₂ : zssFlush m₁ with
      | mk ok₂ m₂ =>
        rw [h₂] at hran₂ hok₂
        have hran₁₂ := (hran.trans hran₁).trans hran₂
        have hbody₂ : ∀ e ∈ evs ++ evs₁ ++ evs₂,
            e.Within (beyond m₀.zssBase m₀.zssSectors tail) := by
          intro e he
          rcases List.mem_append.1 he with h | h
          · exact hbody e h
          · rw [hfl₂ e h]; trivial
        cases ok₂ with
        | false => exact Appends.failed _ hran₁₂ hbody₂ (by norm_num)
        | true =>
          -- the disk just before the header goes out
          have hreplay : replay (evs ++ evs₁) m₀.disk = m₁.disk := by
            rw [replay_append, ← hran.disk, ← hran₁.disk]
          have hview' : recordLookup (fun i => replay (evs ++ evs₁) m₀.disk (m₀.zssBase + i))
              (some r) = post := by
            rw [← hview]
            refine recordLookup_congr fun r' hr' i h1 h2 => ?_
            cases hr'
            rw [hpos] at h1 h2
            show replay (evs ++ evs₁) m₀.disk (m₀.zssBase + i) = m.disk (m₀.zssBase + i)
            rw [hreplay, hran₁.disk]
            refine replay_off hat₁ _ ?_
            intro hmem
            have : m₀.zssBase + i = m₀.zssBase + (tail + 1 + r.entry.blocks) := hmem
            omega
          obtain ⟨evs₃, hran₃, hcase₃⟩ := zssCommit_ran m₂ tail header
          rw [hran₁₂.base, hran₁₂.vb] at hcase₃
          simp only
          rcases hcase₃ with ⟨rfl, hne⟩ | ⟨flushed, rfl, hfl, hhealthy⟩
          · refine Appends.failed _ (hran₁₂.trans hran₃) ?_ hne
            rw [List.append_nil]
            exact hbody₂
          · refine Appends.published (evs ++ evs₁) header flushed ?_ hbody (by omega) hdec ?_
              hview' hfl (fun hh hr => hhealthy (fun n => by rw [hran₁₂.outcome]; exact hh n) hr)
              hclean hverified
            · rw [publication, ← hok₂ rfl]
              exact hran₁₂.trans hran₃
            · intro hlt
              rw [hreplay]
              exact hz₁ rfl hlt

/-! ## The calls -/

/-- The block loop writes beyond the tail, and when it succeeds the blocks are in
place and the checksum is that of the bytes they hold. -/
theorem zssPutBlocks_ran (src : List UInt8) (tail n b : ℕ) (crc : UInt32) (m : Machine)
    (hcover : src.length ≤ (b + n) * 512) :
    ∃ evs, Ran m (zssPutBlocks src tail n b crc m).2 evs ∧
      (∀ e ∈ evs, e.Within (beyond m.zssBase m.zssSectors tail)) ∧
      (∀ e ∈ evs, e.Within {a | ∃ i, b ≤ i ∧ a = m.zssBase + (tail + 1 + i)}) ∧
      ∀ crc', (zssPutBlocks src tail n b crc m).1 = some crc' →
        crc' = (src.drop (b * 512)).foldl zssCrcStep crc ∧
        ∀ i, b ≤ i → i < b + n →
          (zssPutBlocks src tail n b crc m).2.disk (m.zssBase + (tail + 1 + i))
            = dataBlock src i := by
  induction n generalizing b crc m with
  | zero =>
    refine ⟨[], Ran.refl m, by simp, by simp, ?_⟩
    intro crc' hcrc
    cases hcrc
    rw [List.drop_eq_nil_of_le (by simpa using hcover)]
    exact ⟨rfl, fun i h1 h2 => by omega⟩
  | succ n ih =>
    obtain ⟨evs₁, hran₁, hcase₁, hok₁⟩ := zssSectorWrite_ran m (tail + 1 + b) (dataBlock src b)
    have hin₁ : (∀ e ∈ evs₁, e.Within (beyond m.zssBase m.zssSectors tail)) ∧
        ∀ e ∈ evs₁, e.Within {a | ∃ i, b ≤ i ∧ a = m.zssBase + (tail + 1 + i)} := by
      rcases hcase₁ with rfl | ⟨hlt, rfl⟩
      · simp
      · refine ⟨fun e he => ?_, fun e he => ?_⟩
        · rw [List.mem_singleton.1 he]
          exact ⟨tail + 1 + b, by omega, hlt, rfl⟩
        · rw [List.mem_singleton.1 he]
          exact ⟨b, le_refl b, rfl⟩
    unfold zssPutBlocks
    simp only
    rw [show padSector ((src.drop (b * 512)).take 512) = dataBlock src b from rfl]
    cases h₁ : zssSectorWrite m (tail + 1 + b) (dataBlock src b) with
    | mk ok₁ m₁ =>
      rw [h₁] at hran₁ hok₁
      cases ok₁ with
      | false => exact ⟨evs₁, hran₁, hin₁.1, hin₁.2, by simp⟩
      | true =>
        obtain ⟨evs₂, hran₂, hin₂, hat₂, hspec₂⟩ :=
          ih (b + 1) (((src.drop (b * 512)).take 512).foldl zssCrcStep crc) m₁
            (by rw [show b + 1 + n = b + (n + 1) by ring]; exact hcover)
        rw [hran₁.base] at hat₂ hspec₂
        rw [hran₁.base, hran₁.sectors] at hin₂
        refine ⟨evs₁ ++ evs₂, hran₁.trans hran₂, ?_, ?_, ?_⟩
        · intro e he
          rcases List.mem_append.1 he with h | h
          · exact hin₁.1 e h
          · exact hin₂ e h
        · intro e he
          rcases List.mem_append.1 he with h | h
          · exact hin₁.2 e h
          · have := hat₂ e h
            cases e with
            | write a x =>
              obtain ⟨i, hi, rfl⟩ := this
              exact ⟨i, by omega, rfl⟩
            | flush => trivial
        · intro crc' hcrc
          obtain ⟨h1, h2⟩ := hspec₂ crc' hcrc
          refine ⟨?_, fun i hle hlt => ?_⟩
          · rw [h1, ← List.foldl_append, show (b + 1) * 512 = b * 512 + 512 by ring,
              ← List.drop_drop, List.take_append_drop]
          · by_cases hib : i = b
            · -- the block just written; the later ones lie elsewhere
              subst hib
              show (zssPutBlocks src tail n (i + 1) _ m₁).2.disk _ = _
              rw [hran₂.disk, replay_off hat₂, hran₁.disk, hok₁ rfl]
              · simp [Event.apply]
              · rintro ⟨j, hj, hjeq⟩
                omega
            · exact h2 i (by omega) (by omega)

/-- The record `zss_put` publishes at `tail`. -/
def putRecord (tail : ℕ) (name src : List UInt8) : LogRecord :=
  ⟨⟨tail, src.length, (zssCrc src).toNat, (src.length + 511) / 512⟩, name, false⟩

/-- The tombstone `zss_delete` publishes at `tail`. -/
def deleteRecord (tail : ℕ) (name : List UInt8) : LogRecord := ⟨⟨tail, 0, 0, 0⟩, name, true⟩

/-- A call that fails before it writes anything. -/
theorem Appends.early {code : ℤ} {r : LogRecord} {post : Lookup} (hcode : code ≠ 0) :
    Appends m m tail code r post :=
  Appends.failed [] (Ran.refl m) (by simp) hcode

/-- `zss_put` is an append of its record. -/
theorem zssPut_appends {b : Bank} {rs : List LogRecord} (h : Holds m b rs tail)
    (name src : List UInt8) :
    (zssPut m name src).2 = m ∧ (zssPut m name src).1 ≠ 0 ∨
    Appends (m.select b) (zssPut m name src).2 tail (zssPut m name src).1
      (putRecord tail name src) (fileLookup src.length (zssCrc src).toNat src) := by
  unfold zssPut
  split
  · exact Or.inl ⟨rfl, by norm_num⟩
  · rename_i hargs
    right
    simp only [not_or, not_lt, gt_iff_lt] at hargs
    obtain ⟨hlen, hmax, hok⟩ := hargs
    obtain ⟨n, hname⟩ : ∃ n, zssNameOk name = some n :=
      Option.isSome_iff_exists.1 (by simpa [Option.isSome_iff_ne_none] using hok)
    have hsec : b.sectors = 65536 := h.selects.bank.2.1
    rw [zssFind_eq h (by simp)]
    simp only [Option.bind_none, statusOf, lt_irrefl, if_false]
    rw [show (m.select b).zssSectors = b.sectors from rfl]
    split
    · exact Appends.early (by norm_num)
    · rename_i hfit
      obtain ⟨evs, hran, hin, -, hspec⟩ := zssPutBlocks_ran src tail ((src.length + 511) / 512) 0
        0xffffffff (m.select b) (by omega)
      cases hput : zssPutBlocks src tail ((src.length + 511) / 512) 0 0xffffffff (m.select b) with
      | mk res m₁ =>
        rw [hput] at hran hspec
        cases res with
        | none => exact Appends.failed evs hran hin (by norm_num)
        | some crc =>
          obtain ⟨hcrc, hblocks⟩ := hspec crc rfl
          have hsum : (crc ^^^ 0xffffffff).toNat = (zssCrc src).toNat := by
            rw [hcrc, Nat.zero_mul, List.drop_zero]
            rfl
          simp only
          rw [hsum]
          refine @zssPublish_appends _ _ _ _ (putRecord tail name src) _ _ hran hin
            (show tail + 1 + (src.length + 511) / 512 ≤ b.sectors by omega) ?_ rfl ?_ ?_ (if_pos rfl)
          · exact zssDecodeRecord_fileHeader hname (by omega) hmax (zssCrc src).toNat_lt
              (show _ ≤ b.sectors by omega) (show b.sectors < _ by omega)
          · have hbytes := @dataBytes_blocks (fun i => m₁.disk (b.base + i)) src tail
              (zssCrc src).toNat (fun i hi => hblocks i (Nat.zero_le _) (by omega))
            rw [recordLookup, if_neg (by simp [putRecord])]
            exact congrArg (fileLookup src.length (zssCrc src).toNat) hbytes
          · exact nul_not_mem_fileHeader hname

/-- `zss_delete` is an append of a tombstone. -/
theorem zssDelete_appends {b : Bank} {rs : List LogRecord} (h : Holds m b rs tail)
    (name : List UInt8) :
    (zssDelete m name).2 = m ∧ (zssDelete m name).1 ≠ 0 ∨
    Appends (m.select b) (zssDelete m name).2 tail (zssDelete m name).1
      (deleteRecord tail name) deletedLookup := by
  unfold zssDelete
  split
  · exact Or.inl ⟨rfl, by norm_num⟩
  · rename_i hok
    right
    have hsome : (zssNameOk name).isSome := by simpa [Option.isSome_iff_ne_none] using hok
    obtain ⟨n, hname⟩ := Option.isSome_iff_exists.1 hsome
    have hsec : b.sectors = 65536 := h.selects.bank.2.1
    rw [zssFind_eq h (fun n hn => by cases hn; exact hsome)]
    simp only
    split
    · exact Appends.early (by norm_num)
    · split
      · rename_i hneg
        exact Appends.early (ne_of_lt hneg)
      · rw [show (m.select b).zssSectors = b.sectors from rfl]
        split
        · exact Appends.early (by norm_num)
        · rename_i hfit
          refine @zssPublish_appends _ _ _ _ (deleteRecord tail name) _ _ (Ran.refl _) (by simp)
            (show tail + 1 + 0 ≤ b.sectors by omega) ?_ rfl rfl ?_ rfl
          · exact zssDecodeRecord_deleteHeader hname (show _ ≤ b.sectors by omega)
              (show b.sectors < _ by omega)
          · exact nul_not_mem_deleteHeader hname

end ZealBringup.Store
