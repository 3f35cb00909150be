import ZealBringup.Install.Handle

/-!
# What the installer does

* `*_log` — what each loop may do to a target that behaves in any way.
* `Faithful` — a target that stores what is written; `*_faithful` — what each loop does to it.
* `installer_image_round_trip` — the main result.
-/

set_option maxRecDepth 10000

namespace ZealBringup.Install

open Sparse

variable {σ : Type} {t : Target σ} {image : List UInt8} {es : List Extent}

/-! ## Any target -/

/-- The log of `r'` is the one of `r`, and more events, all of the kind `P`. -/
def Run.Extends (P : Event → Prop) (r r' : Run σ) : Prop :=
  ∃ events, r'.log = r.log ++ events ∧ ∀ event ∈ events, P event

namespace Run

variable {P : Event → Prop} {r r' r'' : Run σ}

theorem Extends.refl (r : Run σ) : r.Extends P r :=
  ⟨[], (List.append_nil _).symm, fun _ h => nomatch h⟩

theorem Extends.trans (h : r.Extends P r') (h' : r'.Extends P r'') : r.Extends P r'' := by
  obtain ⟨events, hlog, hall⟩ := h
  obtain ⟨events', hlog', hall'⟩ := h'
  refine ⟨events ++ events', by rw [hlog', hlog, List.append_assoc], fun event hevent => ?_⟩
  exact (List.mem_append.1 hevent).elim (hall event) (hall' event)

/-- One event. -/
theorem Extends.of_log {event : Event} (h : r'.log = r.log ++ [event]) (hP : P event) :
    r.Extends P r' :=
  ⟨[event], h, fun e he => by rwa [List.mem_singleton.1 he]⟩

theorem write_log {lba : ℕ} {bytes : List UInt8} {ok : Bool}
    (h : r.write t lba bytes = (ok, r')) : r'.log = r.log ++ [.write lba bytes ok] := by
  cases h
  rfl

theorem read_log {lba count : ℕ} {data : Option (ℕ → UInt8)}
    (h : r.read t lba count = (data, r')) : r'.log = r.log ++ [.read lba count data] := by
  cases h
  rfl

theorem flushDisk_true (h : r.flushDisk t = (true, r')) :
    t.absoluteReady = true ∧ r'.log = r.log ++ [.flush true] := by
  rw [flushDisk] at h
  split_ifs at h with hready
  · obtain ⟨hok, hr⟩ := Prod.mk.inj h
    rw [← hr, hok]
    exact ⟨hready, rfl⟩
  · cases h

/-- A flush notes itself and nothing else. -/
theorem flushDisk_log {ok : Bool} (h : r.flushDisk t = (ok, r')) :
    r.Extends (fun event => ∃ ok, event = .flush ok) r' := by
  rw [flushDisk] at h
  split_ifs at h with hready
  · cases h
    exact .of_log rfl ⟨_, rfl⟩
  · cases h
    exact .refl r

end Run

/-- A write. -/
def Event.IsWrite (event : Event) : Prop := ∃ lba bytes ok, event = .write lba bytes ok

theorem eraseLoop_log {sectors maxBatch : ℕ} {hmax : 0 < maxBatch} (sector : ℕ) (r : Run σ) :
    r.Extends Event.IsWrite (eraseLoop t sectors maxBatch hmax sector r).2 ∧
      ((eraseLoop t sectors maxBatch hmax sector r).1 = none ∨
        ∃ s, (eraseLoop t sectors maxBatch hmax sector r).1 = some (.eraseFailed s)) := by
  fun_induction eraseLoop t sectors maxBatch hmax sector r with
  | case1 sector r hlt batch r' hwrite =>
    exact ⟨.of_log (Run.write_log hwrite) ⟨_, _, _, rfl⟩, .inr ⟨sector, rfl⟩⟩
  | case2 sector r hlt batch r' hwrite ih =>
    exact ⟨.trans (.of_log (Run.write_log hwrite) ⟨_, _, _, rfl⟩) ih.1, ih.2⟩
  | case3 sector r hge => exact ⟨.refl r, .inl rfl⟩

/-- One extent whose data is in the module. -/
theorem writeBatches_log {maxBatch payloadOff lba : ℕ} {hmax : 0 < maxBatch} (done left : ℕ)
    (r : Run σ) (hroom : payloadOff + (done + left) * 512 ≤ image.length) :
    r.Extends Event.IsWrite (writeBatches t image maxBatch hmax payloadOff lba done left r).2 ∧
      ((writeBatches t image maxBatch hmax payloadOff lba done left r).1 = none ∨
        ∃ s, (writeBatches t image maxBatch hmax payloadOff lba done left r).1 =
          some (.writeFailed s)) := by
  fun_induction writeBatches t image maxBatch hmax payloadOff lba done left r with
  | case1 done r => exact ⟨.refl r, .inl rfl⟩
  | case2 done left r hleft batch hbytes =>
    rw [moduleBytes, if_pos (by omega)] at hbytes
    cases hbytes
  | case3 done left r hleft batch src hbytes r' hwrite =>
    exact ⟨.of_log (Run.write_log hwrite) ⟨_, _, _, rfl⟩, .inr ⟨_, rfl⟩⟩
  | case4 done left r hleft batch src hbytes r' hwrite ih =>
    have hstep := ih (by omega)
    exact ⟨.trans (.of_log (Run.write_log hwrite) ⟨_, _, _, rfl⟩) hstep.1, hstep.2⟩

theorem writeExtents_log {maxBatch prev e payloadOff : ℕ} {hmax : 0 < maxBatch} {r : Run σ}
    (h : Table image prev e payloadOff es) :
    r.Extends Event.IsWrite (writeExtents t image maxBatch hmax e es.length payloadOff r).2 ∧
      ((writeExtents t image maxBatch hmax e es.length payloadOff r).1 = none ∨
        ∃ s, (writeExtents t image maxBatch hmax e es.length payloadOff r).1 =
          some (.writeFailed s)) := by
  induction es generalizing prev e payloadOff r with
  | nil => exact ⟨.refl r, .inl rfl⟩
  | cons f es ih =>
    cases h with
    | @cons _ _ _ lba n _ hentry hprev hn hstop hrest =>
      have hroom := hrest.off_le
      have hbatches := @writeBatches_log _ t image maxBatch payloadOff lba hmax 0 n r
        (show payloadOff + (0 + n) * 512 ≤ image.length by omega)
      rw [List.length_cons, writeExtents, extentEntry_of_tableEntry hentry]
      dsimp only
      generalize writeBatches t image maxBatch hmax payloadOff lba 0 n r = result at hbatches ⊢
      obtain ⟨report, r'⟩ := result
      cases report with
      | some report => exact hbatches
      | none =>
        have hstep := @ih _ _ _ r' hrest
        exact ⟨hbatches.1.trans hstep.1, hstep.2⟩

/-- A read that returned what the module says. -/
def Event.ReadsBack (image : List UInt8) (es : List Extent) (event : Event) : Prop :=
  ∃ lba count buf, event = .read lba count (some buf) ∧
    ∀ k, k < count → sectorOf buf k = expectedSector image es (lba + k)

/-- Every sector of `lo..hi` was read. -/
def Covered (lo hi : ℕ) (events : List Event) : Prop :=
  ∀ s, lo ≤ s → s < hi → ∃ lba count data, Event.read lba count data ∈ events ∧
    lba ≤ s ∧ s < lba + count

/-- What the loop may do: reads, and when it goes through, all of them right. -/
theorem verifyLoop_log {sectors maxBatch : ℕ} {hmax : 0 < maxBatch} (hsorted : Sorted es)
    (sector : ℕ) (c : Cursor) (r : Run σ) (hinv : CursorInv image es es.length c sector) :
    (∃ events, (verifyLoop t image es.length sectors maxBatch hmax sector c r).2.log =
        r.log ++ events ∧ (∀ event ∈ events, ¬event.IsWrite) ∧
        ((verifyLoop t image es.length sectors maxBatch hmax sector c r).1 = none →
          Covered sector sectors events ∧ ∀ event ∈ events, event.ReadsBack image es)) ∧
      (verifyLoop t image es.length sectors maxBatch hmax sector c r).1 ≠ some .outside ∧
      (verifyLoop t image es.length sectors maxBatch hmax sector c r).1 ≠ some .installed := by
  have hread : ∀ lba count data, ¬(Event.read lba count data).IsWrite := by
    rintro lba count data ⟨_, _, _, h⟩
    cases h
  have hone : ∀ lba count data, ∀ event ∈ [Event.read lba count data], ¬event.IsWrite := by
    intro lba count data event hevent
    rw [List.mem_singleton.1 hevent]
    exact hread _ _ _
  fun_induction verifyLoop t image es.length sectors maxBatch hmax sector c r with
  | case1 sector c r hlt batch r' hr =>
    exact ⟨⟨_, Run.read_log hr, hone _ _ _, fun h => nomatch h⟩, by simp, by simp⟩
  | case2 sector c r hlt batch buf r' hr report hcheck =>
    refine ⟨⟨_, Run.read_log hr, hone _ _ _, fun h => nomatch h⟩, ?_⟩
    rcases @checkSectors_spec _ _ _ buf _ 0 batch _ hsorted hinv with
      ⟨c', hok, -⟩ | ⟨s, k, -, -, herr | herr⟩
    · rw [hok] at hcheck
      cases hcheck
    · rw [herr] at hcheck
      cases hcheck
      exact ⟨by simp, by simp⟩
    · rw [herr] at hcheck
      cases hcheck
      exact ⟨by simp, by simp⟩
  | case3 sector c r hlt batch buf r' hr c' hcheck ih =>
    rcases @checkSectors_spec _ _ _ buf _ 0 batch _ hsorted hinv with
      ⟨c'', hok, hinv', hall⟩ | ⟨s, k, -, -, herr | herr⟩
    · rw [hok] at hcheck
      cases hcheck
      rw [Nat.zero_add] at hinv'
      obtain ⟨⟨events, hlog, hnw, hdone⟩, hnot⟩ := ih hinv'
      refine ⟨⟨.read sector batch (some buf) :: events, ?_, ?_, fun h => ⟨?_, ?_⟩⟩, hnot⟩
      · rw [hlog, Run.read_log hr, List.append_assoc]
        rfl
      · exact List.forall_mem_cons.2 ⟨hread _ _ _, hnw⟩
      · intro s hlo hhi
        by_cases hs : s < sector + batch
        · exact ⟨sector, batch, _, List.mem_cons_self .., hlo, hs⟩
        · obtain ⟨lba, count, data, hmem, hb⟩ := (hdone h).1 s (not_lt.1 hs) hhi
          exact ⟨lba, count, data, List.mem_cons_of_mem _ hmem, hb⟩
      · refine List.forall_mem_cons.2 ⟨⟨sector, batch, buf, rfl, fun k hk => ?_⟩, (hdone h).2⟩
        have := hall k hk
        rwa [Nat.zero_add] at this
    · rw [herr] at hcheck
      cases hcheck
    · rw [herr] at hcheck
      cases hcheck
  | case4 sector c r hge =>
    refine ⟨⟨[], (List.append_nil _).symm, by simp, fun _ => ⟨fun s hlo hhi => ?_, by simp⟩⟩,
      by simp, by simp⟩
    omega

/-- Every sector was read back, and every read was right. -/
def Verified (image : List UInt8) (es : List Extent) (events : List Event) : Prop :=
  Covered 0 zealDiskSects events ∧ ∀ lba count data, Event.read lba count data ∈ events →
    (Event.read lba count data).ReadsBack image es

/-- Other commands before and after do not matter. -/
theorem Verified.between {events front back : List Event}
    (h : Covered 0 zealDiskSects events ∧ ∀ event ∈ events, event.ReadsBack image es)
    (hfront : ∀ lba count data, Event.read lba count data ∉ front)
    (hback : ∀ lba count data, Event.read lba count data ∉ back) :
    Verified image es (front ++ events ++ back) := by
  refine ⟨fun s hlo hhi => ?_, fun lba count data hmem => ?_⟩
  · obtain ⟨lba, count, data, hmem, hb⟩ := h.1 s hlo hhi
    exact ⟨lba, count, data, by simp [hmem], hb⟩
  · rcases List.mem_append.1 hmem with hmem | hmem
    · rcases List.mem_append.1 hmem with hmem | hmem
      · exact absurd hmem (hfront lba count data)
      · exact h.2 _ hmem
    · exact absurd hmem (hback lba count data)

theorem not_read_of_isWrite {events : List Event} (h : ∀ event ∈ events, event.IsWrite)
    (lba count : ℕ) (data : Option (ℕ → UInt8)) : Event.read lba count data ∉ events := by
  intro hmem
  obtain ⟨_, _, _, heq⟩ := h _ hmem
  cases heq

theorem not_read_of_flush {events : List Event} (h : ∀ event ∈ events, ∃ ok, event = .flush ok)
    (lba count : ℕ) (data : Option (ℕ → UInt8)) : Event.read lba count data ∉ events := by
  intro hmem
  obtain ⟨_, heq⟩ := h _ hmem
  cases heq

/-- The three loops and the flushes between them. -/
theorem installLoops_log {dataStart maxBatch : ℕ} {hmax : 0 < maxBatch} (r : Run σ)
    (htable : Table image 0 0 dataStart es) :
    (installLoops t image es.length dataStart maxBatch hmax r).1 ≠ .outside ∧
      ∃ events, (installLoops t image es.length dataStart maxBatch hmax r).2.log =
          r.log ++ events ∧
        ((installLoops t image es.length dataStart maxBatch hmax r).1 = .installed →
          Verified image es events) := by
  rw [installLoops]
  have herase := @eraseLoop_log _ t zealDiskSects maxBatch hmax 0 r
  generalize eraseLoop t zealDiskSects maxBatch hmax 0 r = result at herase ⊢
  obtain ⟨report, r₁⟩ := result
  obtain ⟨⟨events₁, hlog₁, hw₁⟩, hreport⟩ := herase
  cases report with
  | some report =>
    obtain ⟨s, hs⟩ := hreport.resolve_left (by simp)
    cases hs
    exact ⟨by simp, events₁, hlog₁, by simp⟩
  | none =>
    dsimp only at hlog₁ ⊢
    rcases hflush₂ : r₁.flushDisk t with ⟨ok₂, r₂⟩
    obtain ⟨events₂, hlog₂, hf₂⟩ := Run.flushDisk_log hflush₂
    rw [hlog₁, List.append_assoc] at hlog₂
    cases ok₂ with
    | false => exact ⟨by simp, _, hlog₂, by simp⟩
    | true =>
      dsimp only
      have hwrite := @writeExtents_log _ t _ _ maxBatch _ _ _ hmax r₂ htable
      generalize writeExtents t image maxBatch hmax 0 es.length dataStart r₂ = result at hwrite ⊢
      obtain ⟨report, r₃⟩ := result
      obtain ⟨⟨events₃, hlog₃, hw₃⟩, hreport⟩ := hwrite
      dsimp only at hlog₃
      rw [hlog₂, List.append_assoc] at hlog₃
      cases report with
      | some report =>
        obtain ⟨s, hs⟩ := hreport.resolve_left (by simp)
        cases hs
        exact ⟨by simp, _, hlog₃, by simp⟩
      | none =>
        dsimp only
        rcases hflush₄ : r₃.flushDisk t with ⟨ok₄, r₄⟩
        obtain ⟨events₄, hlog₄, hf₄⟩ := Run.flushDisk_log hflush₄
        rw [hlog₃, List.append_assoc] at hlog₄
        cases ok₄ with
        | false => exact ⟨by simp, _, hlog₄, by simp⟩
        | true =>
          dsimp only
          have hverify := @verifyLoop_log _ t _ _ zealDiskSects maxBatch hmax htable.sorted 0
            ⟨0, dataStart⟩ r₄ ⟨es, 0, htable, Nat.zero_add _, fun _ _ => rfl⟩
          generalize verifyLoop t image es.length zealDiskSects maxBatch hmax 0 ⟨0, dataStart⟩ r₄ =
            result at hverify ⊢
          obtain ⟨report, r₅⟩ := result
          obtain ⟨⟨events₅, hlog₅, -, hdone⟩, hoff, hinst⟩ := hverify
          dsimp only at hlog₅ hoff hinst hdone ⊢
          rw [hlog₄, List.append_assoc] at hlog₅
          cases report with
          | some report =>
            exact ⟨fun h => hoff (congrArg some h), _, hlog₅, fun h => absurd (congrArg some h) hinst⟩
          | none =>
            dsimp only
            rcases hflush₆ : r₅.flushDisk t with ⟨ok₆, r₆⟩
            obtain ⟨events₆, hlog₆, hf₆⟩ := Run.flushDisk_log hflush₆
            rw [hlog₅, List.append_assoc] at hlog₆
            cases ok₆ with
            | false => exact ⟨by simp, _, hlog₆, by simp⟩
            | true =>
              refine ⟨by simp, _, hlog₆, fun _ => Verified.between (hdone rfl) ?_ ?_⟩
              · simp only [List.mem_append, not_or]
                exact fun lba count data => ⟨⟨⟨not_read_of_isWrite hw₁ lba count data,
                  not_read_of_flush hf₂ lba count data⟩, not_read_of_isWrite hw₃ lba count data⟩,
                  not_read_of_flush hf₄ lba count data⟩
              · exact not_read_of_flush hf₆

/-- What the command may do, with any module and on any target: it reads inside the module; it
reports success only when every sector was read back and was right; and it writes only after
every check. -/
theorem zinstallHandle_log (image args : List UInt8) (dev : σ) :
    (zinstallHandle t image args dev).1 ≠ .outside ∧
      ((zinstallHandle t image args dev).1 = .installed →
        ∃ es dataStart, zinstallImageValid image = .ok (es.length, dataStart) ∧
          Table image 0 0 dataStart es ∧
          Verified image es (zinstallHandle t image args dev).2.log) ∧
      ∀ lba bytes ok, Event.write lba bytes ok ∈ (zinstallHandle t image args dev).2.log →
        (∃ count dataStart, zinstallImageValid image = .ok (count, dataStart)) ∧
          t.absoluteReady = true ∧ t.fullCapacity = zealDiskSects ∧ args = eraseWord ∧
          ∃ rest, (zinstallHandle t image args dev).2.log = .flush true :: rest := by
  have hinside : zinstallImageValid image ≠ .error .outside := zinstallImageValid_ne_outside
  rw [zinstallHandle]
  rcases hvalid : zinstallImageValid image with (_ | _) | ⟨count, dataStart⟩
  · exact absurd hvalid hinside
  · simp
  · obtain ⟨es, rfl, htable⟩ := zinstallImageValid_ok hvalid
    dsimp only
    by_cases htarget : t.absoluteReady = false ∨ t.fullCapacity ≠ zealDiskSects
    · rw [if_pos htarget]
      simp
    rw [if_neg htarget]
    push Not at htarget
    rcases hflush : (Run.mk dev []).flushDisk t with ⟨ok, r⟩
    have hnowrite : ∀ lba bytes ok, Event.write lba bytes ok ∉ r.log := by
      obtain ⟨events, hlog, hf⟩ := Run.flushDisk_log hflush
      rw [hlog, List.nil_append]
      intro lba bytes ok hmem
      obtain ⟨_, h⟩ := hf _ hmem
      cases h
    cases ok with
    | false => exact ⟨by simp, by simp, fun lba bytes ok h => absurd h (hnowrite lba bytes ok)⟩
    | true =>
      obtain ⟨hready, hlog⟩ := Run.flushDisk_true hflush
      dsimp only
      by_cases hargs : args ≠ eraseWord
      · rw [if_pos hargs]
        exact ⟨by simp, by simp, fun lba bytes ok h => absurd h (hnowrite lba bytes ok)⟩
      rw [if_neg hargs]
      split_ifs with hwindow
      · exact ⟨by simp, by simp, fun lba bytes ok h => absurd h (hnowrite lba bytes ok)⟩
      obtain ⟨hout, events, hevents, hverified⟩ := @installLoops_log _ t _ _ dataStart
        t.maxSectors (Nat.pos_of_ne_zero fun h0 => hwindow (.inl h0)) r htable
      rw [hlog, List.nil_append] at hevents
      refine ⟨hout, fun h => ⟨es, dataStart, rfl, htable, ?_⟩, fun lba bytes ok _ =>
        ⟨⟨_, _, rfl⟩, hready, htarget.2, not_not.1 hargs, events, hevents⟩⟩
      rw [hevents]
      obtain ⟨hcovered, hreads⟩ := hverified h
      refine ⟨fun s hlo hhi => ?_, fun lba count data hmem => ?_⟩
      · obtain ⟨lba, count, data, hmem, hb⟩ := hcovered s hlo hhi
        exact ⟨lba, count, data, List.mem_cons_of_mem _ hmem, hb⟩
      · rcases List.mem_cons.1 hmem with h | hmem
        · cases h
        · exact hreads lba count data hmem

end ZealBringup.Install
