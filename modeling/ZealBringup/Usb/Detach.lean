import ZealBringup.Usb.Topology

/-!
# Detaching

`usb_detach` keeps the device table sound, at every write.

* `TopologyOk` — a sound table, in every moment of its history.
* `Removes` — a step that at most drops devices that are deep enough.
* `usbDetach_ok` — a device and all that is below it is dropped; the recursion is never too deep.
-/

namespace ZealBringup.Usb

variable {s s' s'' : Topology} {d : UsbDev} {i k n m : ℕ}

/-! ## Histories -/

/-- A record that is handed out was not lost before. -/
def NotAgain (later earlier : Moment) : Prop := ∀ i, later = .handedOut i → earlier ≠ .stuck i

/-- A sound history. -/
structure LogOk (log : List Moment) : Prop where
  tables : ∀ t, .table t ∈ log → TableOk t
  notDeep : Moment.deep ∉ log
  notAgain : log.Pairwise NotAgain

/-- A sound table, now and before. -/
structure TopologyOk (s : Topology) : Prop where
  table : TableOk s.devices
  count : ∀ i, (s.devices i).present = true → i < s.deviceCount
  log : LogOk s.log
  stuck : ∀ i, .stuck i ∈ s.log → (s.devices i).quarantined = true

theorem topologyOk_start : TopologyOk {} where
  table := tableOk_empty
  count := fun _ h => nomatch h
  log := ⟨fun _ h => absurd h List.not_mem_nil, List.not_mem_nil, .nil⟩
  stuck := fun _ h => absurd h List.not_mem_nil

@[simp] theorem write_devices (s : Topology) (i : ℕ) (d : UsbDev) :
    (s.write i d).devices = Function.update s.devices i d := rfl

@[simp] theorem write_deviceCount (s : Topology) (i : ℕ) (d : UsbDev) :
    (s.write i d).deviceCount = s.deviceCount := rfl

@[simp] theorem note_devices (s : Topology) (m : Moment) : (s.note m).devices = s.devices := rfl

@[simp] theorem next_devices (s : Topology) : s.next.devices = s.devices := rfl

/-- Answers, counters and port states are no part of the table. -/
theorem TopologyOk.congr (h : TopologyOk s) (hdevices : s'.devices = s.devices)
    (hcount : s.deviceCount ≤ s'.deviceCount) (hlog : s'.log = s.log) : TopologyOk s' where
  table := hdevices ▸ h.table
  count := fun i hi => Nat.lt_of_lt_of_le (h.count i (hdevices ▸ hi)) hcount
  log := hlog ▸ h.log
  stuck := fun i hi => by
    rw [hlog] at hi
    rw [hdevices]
    exact h.stuck i hi

theorem TopologyOk.next (h : TopologyOk s) : TopologyOk s.next := h.congr rfl (Nat.le_refl _) rfl

theorem TopologyOk.write (h : TopologyOk s) (htable : TableOk (Function.update s.devices i d))
    (hcount : d.present = true → i < s.deviceCount)
    (hquarantined : (s.devices i).quarantined = true → d.quarantined = true) :
    TopologyOk (s.write i d) where
  table := htable
  count := fun k hk => by
    rw [write_devices] at hk
    by_cases hki : k = i
    · rw [hki, Function.update_self] at hk
      exact hki ▸ hcount hk
    · rw [Function.update_of_ne hki] at hk
      exact h.count k hk
  log := by
    refine ⟨fun t ht => ?_, fun hdeep => ?_, List.pairwise_cons.2 ⟨fun m hm i h0 => (nomatch h0),
      h.log.notAgain⟩⟩
    · rcases List.mem_cons.1 ht with ht | ht
      · exact Moment.table.inj ht ▸ htable
      · exact h.log.tables t ht
    · rcases List.mem_cons.1 hdeep with h0 | hdeep
      · cases h0
      · exact h.log.notDeep hdeep
  stuck := fun k hk => by
    rw [write_devices]
    rcases List.mem_cons.1 hk with h0 | hk
    · cases h0
    by_cases hki : k = i
    · rw [hki, Function.update_self]
      exact hquarantined (hki ▸ h.stuck k hk)
    · rw [Function.update_of_ne hki]
      exact h.stuck k hk

/-- A write of a record that is not present, before and behind. -/
theorem TopologyOk.writeAbsent (h : TopologyOk s) (hi : (s.devices i).present = false)
    (hd : d.present = false)
    (hquarantined : (s.devices i).quarantined = true → d.quarantined = true) :
    TopologyOk (s.write i d) := by
  refine h.write (h.table.remove (h.table.childless hi) hd) (fun hpresent => ?_) hquarantined
  rw [hd] at hpresent
  cases hpresent

/-- A record whose Disable Slot did not complete is in quarantine. -/
theorem TopologyOk.noteStuck (h : TopologyOk s) (hi : (s.devices i).quarantined = true) :
    TopologyOk (s.note (.stuck i)) where
  table := h.table
  count := h.count
  log := by
    refine ⟨fun t ht => ?_, fun hdeep => ?_, List.pairwise_cons.2 ⟨fun m hm i h0 => (nomatch h0),
      h.log.notAgain⟩⟩
    · rcases List.mem_cons.1 ht with h0 | ht
      · cases h0
      · exact h.log.tables t ht
    · rcases List.mem_cons.1 hdeep with h0 | hdeep
      · cases h0
      · exact h.log.notDeep hdeep
  stuck := fun k hk => by
    rcases List.mem_cons.1 hk with hki | hk
    · rw [Moment.stuck.inj hki]
      exact hi
    · exact h.stuck k hk

/-- A record that is handed out is not in quarantine. -/
theorem TopologyOk.noteHandedOut (h : TopologyOk s) (hi : (s.devices i).quarantined = false) :
    TopologyOk (s.note (.handedOut i)) where
  table := h.table
  count := h.count
  log := by
    refine ⟨fun t ht => ?_, fun hdeep => ?_, List.pairwise_cons.2 ⟨fun m hm k hk => ?_,
      h.log.notAgain⟩⟩
    · rcases List.mem_cons.1 ht with h0 | ht
      · cases h0
      · exact h.log.tables t ht
    · rcases List.mem_cons.1 hdeep with h0 | hdeep
      · cases h0
      · exact h.log.notDeep hdeep
    · rintro rfl
      have hstuck := h.stuck k hm
      rw [← Moment.handedOut.inj hk, hi] at hstuck
      cases hstuck
  stuck := fun k hk => by
    rcases List.mem_cons.1 hk with h0 | hk
    · cases h0
    · exact h.stuck k hk

/-! ## Detaching -/

/-- At most devices of some depth or more are dropped. -/
structure Removes (n : ℕ) (s s' : Topology) : Prop where
  devices : ∀ k, s'.devices k = s.devices k ∨ (s.devices k).present = true ∧
    n ≤ (s.devices k).depth ∧ (s'.devices k).present = false
  count : s'.deviceCount = s.deviceCount

theorem Removes.refl (n : ℕ) (s : Topology) : Removes n s s := ⟨fun _ => .inl rfl, rfl⟩

theorem Removes.trans (h : Removes n s s') (h' : Removes n s' s'') : Removes n s s'' where
  devices := fun k => by
    rcases h.devices k with heq | ⟨hpresent, hdepth, hgone⟩
    · have hk := h'.devices k
      rw [heq] at hk
      exact hk
    · rcases h'.devices k with heq' | ⟨hpresent', -, -⟩
      · exact .inr ⟨hpresent, hdepth, heq' ▸ hgone⟩
      · rw [hgone] at hpresent'
        cases hpresent'
  count := h'.count.trans h.count

theorem Removes.mono (h : Removes m s s') (hnm : n ≤ m) : Removes n s s' where
  devices := fun k => (h.devices k).imp_right fun ⟨hpresent, hdepth, hgone⟩ =>
    ⟨hpresent, Nat.le_trans hnm hdepth, hgone⟩
  count := h.count

/-- A device that is less deep stays. -/
theorem Removes.stays (h : Removes n s s') (hk : (s.devices k).depth < n) :
    s'.devices k = s.devices k :=
  (h.devices k).resolve_right fun hgone => Nat.not_le.2 hk hgone.2.1

/-- A device that is not below a hub does not get there. -/
theorem Removes.notChild (h : Removes n s s')
    (hk : (s.devices k).present = true → (s.devices k).parent ≠ some i) :
    (s'.devices k).present = true → (s'.devices k).parent ≠ some i := by
  rcases h.devices k with heq | ⟨-, -, hgone⟩
  · rw [heq]
    exact hk
  · intro hpresent
    rw [hgone] at hpresent
    cases hpresent

theorem disableSlot_ok (env : Answers) (h : TopologyOk s) (hi : (s.devices i).present = false) :
    TopologyOk (disableSlot env i s) ∧ ((disableSlot env i s).devices i).present = false ∧
      (∀ k, k ≠ i → (disableSlot env i s).devices k = s.devices k) ∧
      (disableSlot env i s).deviceCount = s.deviceCount := by
  rw [disableSlot]
  split
  · exact ⟨h, hi, fun _ _ => rfl, rfl⟩
  have hwrite : ∀ d : UsbDev, (s.next.write i d).devices i = d := fun d => Function.update_self ..
  split
  · refine ⟨h.next.writeAbsent hi hi fun hq => hq, ?_, fun k hk => Function.update_of_ne hk _ _, rfl⟩
    rw [hwrite]
    exact hi
  · have hstuck := h.next.writeAbsent (d := { s.devices i with quarantined := true }) hi hi
      fun _ => rfl
    refine ⟨hstuck.noteStuck (by rw [hwrite]), ?_, fun k hk => Function.update_of_ne hk _ _, rfl⟩
    rw [note_devices, hwrite]
    exact hi

theorem detachRecord_ok (env : Answers) (h : TopologyOk s) (hi : (s.devices i).present = true)
    (hchildless : Childless s.devices i) :
    TopologyOk (detachRecord env i s) ∧ Removes (s.devices i).depth s (detachRecord env i s) ∧
      ((detachRecord env i s).devices i).present = false := by
  rw [detachRecord]
  have hfirst : TopologyOk
      (s.write i { s.devices i with present := false, configured := false }) :=
    h.write (h.table.remove hchildless rfl) (fun h0 => nomatch h0) fun hq => hq
  obtain ⟨hmid, hgone, hother, hcount⟩ := disableSlot_ok env hfirst
    (by rw [write_devices, Function.update_self])
  generalize disableSlot env i
    (s.write i { s.devices i with present := false, configured := false }) = mid at *
  have hlast := hmid.writeAbsent (d := { mid.devices i with parent := none }) hgone hgone
    fun hq => hq
  refine ⟨hlast.congr rfl (Nat.le_refl _) rfl, ⟨fun k => ?_, hcount⟩, ?_⟩
  · dsimp only
    rw [write_devices]
    by_cases hki : k = i
    · rw [hki, Function.update_self]
      exact .inr ⟨hi, Nat.le_refl _, hgone⟩
    · rw [Function.update_of_ne hki, hother k hki, write_devices, Function.update_of_ne hki]
      exact .inl rfl
  · dsimp only
    rw [write_devices, Function.update_self]
    exact hgone

theorem foldl_detach_ok (detach : ℕ → Topology → Topology)
    (hdetach : ∀ k s, TopologyOk s → (s.devices k).present = true → n < (s.devices k).depth →
      TopologyOk (detach k s) ∧ Removes (s.devices k).depth s (detach k s) ∧
        ((detach k s).devices k).present = false)
    (ks : List ℕ) (h : TopologyOk s) (hi : (s.devices i).depth = n) :
    let s' := ks.foldl (fun s k =>
      if (s.devices k).present ∧ (s.devices k).parent = some i then detach k s else s) s
    TopologyOk s' ∧ Removes (n + 1) s s' ∧
      ∀ k ∈ ks, (s'.devices k).present = true → (s'.devices k).parent ≠ some i := by
  induction ks generalizing s with
  | nil => exact ⟨h, .refl _ s, fun k hk => absurd hk List.not_mem_nil⟩
  | cons k ks ih =>
    -- the first one is no child any more
    obtain ⟨mid, hmid, hok, hremoves, hnot⟩ : ∃ mid,
        (if (s.devices k).present ∧ (s.devices k).parent = some i then detach k s else s) = mid ∧
        TopologyOk mid ∧ Removes (n + 1) s mid ∧
        ((mid.devices k).present = true → (mid.devices k).parent ≠ some i) := by
      refine ⟨_, rfl, ?_⟩
      split
      · next hchild =>
        have hdepth := (h.table.parent hchild.1 hchild.2).depth
        rw [hi] at hdepth
        obtain ⟨hok, hremoves, hgone⟩ := hdetach k s h hchild.1 (by omega)
        refine ⟨hok, hremoves.mono (Nat.le_of_eq hdepth.symm), fun hpresent => ?_⟩
        rw [hgone] at hpresent
        cases hpresent
      · next hchild => exact ⟨h, .refl _ s, fun hpresent hp => hchild ⟨hpresent, hp⟩⟩
    have hsame : mid.devices i = s.devices i := hremoves.stays (by omega)
    obtain ⟨hok', hremoves', hrest⟩ := ih hok (by rw [hsame, hi])
    intro s'
    have hs' : s' = ks.foldl (fun s k =>
        if (s.devices k).present ∧ (s.devices k).parent = some i then detach k s else s) mid := by
      rw [← hmid]
      rfl
    rw [hs']
    refine ⟨hok', hremoves.trans hremoves', fun l hl => ?_⟩
    rcases List.mem_cons.1 hl with rfl | hl
    · exact hremoves'.notChild hnot
    · exact hrest l hl

/-- **A device is dropped with all that is below it**, and the recursion is not too deep. -/
theorem usbDetach_ok (env : Answers) (fuel : ℕ) (h : TopologyOk s)
    (hi : (s.devices i).present = true) (hfuel : 6 ≤ fuel + (s.devices i).depth) :
    TopologyOk (usbDetach env fuel i s) ∧ Removes (s.devices i).depth s (usbDetach env fuel i s) ∧
      ((usbDetach env fuel i s).devices i).present = false := by
  induction fuel generalizing i s with
  | zero =>
    have hdepth := h.table.depth_le hi
    omega
  | succ fuel ih =>
    have hnot : ¬(s.devices i).present = false := by rw [hi]; decide
    rw [usbDetach, if_neg hnot]
    obtain ⟨hok, hremoves, hchildren⟩ := foldl_detach_ok (usbDetach env fuel)
      (fun k s hs hk hdepth => ih hs hk (by omega)) (List.range s.deviceCount) h
      (rfl : (s.devices i).depth = (s.devices i).depth)
    generalize (List.range s.deviceCount).foldl (fun s k =>
      if (s.devices k).present ∧ (s.devices k).parent = some i then usbDetach env fuel k s
      else s) s = mid at *
    have hsame : mid.devices i = s.devices i := hremoves.stays (Nat.lt_succ_self _)
    have hchildless : Childless mid.devices i := fun k hk =>
      hchildren k (List.mem_range.2 (hremoves.count ▸ hok.count k hk)) hk
    obtain ⟨hok', hremoves', hgone⟩ :=
      detachRecord_ok env hok (by rw [hsame]; exact hi) hchildless
    rw [hsame] at hremoves'
    exact ⟨hok', (hremoves.mono (Nat.le_succ _)).trans hremoves', hgone⟩

end ZealBringup.Usb
