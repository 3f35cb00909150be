import Mathlib

/-!
# Block devices that can lose power

A device is a function from sector addresses to sector contents.  What a client
did to it is a list of `Event`s, oldest first: sectors written whole, and the
flushes that succeeded.  This file says what may be found on the device after a
power cut and proves the one rule every write-ahead protocol rests on.

* `replay` — the contents once every event has taken effect.
* `Persisted` — what a cut leaves of a finished list of events.  A device that
  can flush keeps everything up to the last flush and *any* sublist of the
  writes since; a device that cannot keeps its writes in order.
* `CrashImage` — a cut anywhere: `Persisted` of some prefix of the events.
* `crash_publish` — **the publication rule**: write a body, flush, write one
  commit sector.  Whatever the cut, either nothing outside the body's sectors
  changed, or the whole body and the commit sector are there.
-/

namespace CrashDisk

variable {σ : Type*}

/-- The contents of a device. -/
abbrev Disk (σ : Type*) := ℕ → σ

/-- What a client made the device do, as far as it took effect. -/
inductive Event (σ : Type*) where
  /-- A sector written whole. -/
  | write (lba : ℕ) (data : σ)
  /-- A flush that succeeded. -/
  | flush

namespace Event

/-- The effect of one event on the contents. -/
def apply : Event σ → Disk σ → Disk σ
  | write a x, d => Function.update d a x
  | flush, d => d

/-- All the event can touch is `S`. -/
def Within (S : Set ℕ) : Event σ → Prop
  | write a _ => a ∈ S
  | flush => True

variable {S : Set ℕ}

@[simp] theorem within_write {a : ℕ} {x : σ} :
    (write a x).Within S ↔ a ∈ S := Iff.rfl

@[simp] theorem within_flush : (flush : Event σ).Within S := trivial

theorem Within.mono {T : Set ℕ} {e : Event σ} (h : e.Within S) (hST : S ⊆ T) : e.Within T := by
  cases e with
  | write a x => exact hST h
  | flush => trivial

end Event

/-- The contents after a list of events, oldest first. -/
def replay (evs : List (Event σ)) (d : Disk σ) : Disk σ :=
  evs.foldl (fun d e => e.apply d) d

@[simp] theorem replay_nil (d : Disk σ) : replay [] d = d := rfl

@[simp] theorem replay_cons (e : Event σ) (evs : List (Event σ)) (d : Disk σ) :
    replay (e :: evs) d = replay evs (e.apply d) := rfl

@[simp] theorem replay_append (u v : List (Event σ)) (d : Disk σ) :
    replay (u ++ v) d = replay v (replay u d) := by
  simp [replay, List.foldl_append]

variable {S : Set ℕ} {evs : List (Event σ)} {a : ℕ}

/-- A sector none of the events touches keeps its contents. -/
theorem replay_off (h : ∀ e ∈ evs, e.Within S) (d : Disk σ) (ha : a ∉ S) :
    replay evs d a = d a := by
  induction evs generalizing d with
  | nil => rfl
  | cons e evs ih =>
    rw [replay_cons, ih (fun e' he' => h e' (List.mem_cons_of_mem _ he'))]
    cases e with
    | write b x =>
      have hb : b ∈ S := h _ (List.mem_cons_self ..)
      exact Function.update_of_ne (fun hab : a = b => ha (by rw [hab]; exact hb)) _ _
    | flush => rfl

/-- Flushes alone leave the contents as they are. -/
theorem replay_flushes (h : ∀ e ∈ evs, e = Event.flush) (d : Disk σ) :
    replay evs d = d := by
  induction evs with
  | nil => rfl
  | cons e evs ih =>
    rw [replay_cons, h e (List.mem_cons_self ..)]
    exact ih (fun e' he' => h e' (List.mem_cons_of_mem _ he'))

/-! ## Power cuts -/

/-- What a cut right after `evs` may leave of them on a device that held `d`.
With a cache that can be flushed, `evs` is split at the last flush: everything
before is there, and an arbitrary choice of what was written since. -/
def Persisted (canFlush : Bool) (d : Disk σ) (evs : List (Event σ)) (d' : Disk σ) : Prop :=
  if canFlush then
    ∃ old new kept : List (Event σ), evs = old ++ new ∧
      (old = [] ∨ ∃ u, old = u ++ [Event.flush]) ∧ Event.flush ∉ new ∧
      kept.Sublist new ∧ d' = replay kept (replay old d)
  else d' = replay evs d

/-- A cut at any point of `evs`. -/
def CrashImage (canFlush : Bool) (d : Disk σ) (evs : List (Event σ)) (d' : Disk σ) : Prop :=
  ∃ cut, cut <+: evs ∧ Persisted canFlush d cut d'

variable {canFlush : Bool} {d d' : Disk σ}

/-- The cut may come after the last event. -/
theorem Persisted.crashImage (h : Persisted canFlush d evs d') : CrashImage canFlush d evs d' :=
  ⟨evs, List.prefix_refl _, h⟩

/-- Every list of events splits at its last flush. -/
theorem exists_split_flush (evs : List (Event σ)) :
    ∃ old new, evs = old ++ new ∧ (old = [] ∨ ∃ u, old = u ++ [Event.flush]) ∧
      Event.flush ∉ new := by
  induction evs using List.reverseRecOn with
  | nil => exact ⟨[], [], rfl, Or.inl rfl, by simp⟩
  | append_singleton evs e ih =>
    cases e with
    | flush => exact ⟨evs ++ [Event.flush], [], by simp, Or.inr ⟨evs, rfl⟩, by simp⟩
    | write a x =>
      obtain ⟨old, new, rfl, hold, hnew⟩ := ih
      exact ⟨old, new ++ [Event.write a x], by simp, hold, by simp [hnew]⟩

/-- The cut may lose nothing. -/
theorem Persisted.all (canFlush : Bool) (d : Disk σ) (evs : List (Event σ)) :
    Persisted canFlush d evs (replay evs d) := by
  cases canFlush with
  | false => rfl
  | true =>
    obtain ⟨old, new, rfl, hold, hnew⟩ := exists_split_flush evs
    exact ⟨old, new, new, rfl, hold, hnew, List.Sublist.refl _, replay_append _ _ _⟩

/-- Whatever is left of some events, it is left on the sectors they write. -/
theorem Persisted.off (h : Persisted canFlush d evs d') (hS : ∀ e ∈ evs, e.Within S) (ha : a ∉ S) :
    d' a = d a := by
  unfold Persisted at h
  split at h
  · obtain ⟨old, new, kept, rfl, -, -, hsub, rfl⟩ := h
    rw [replay_off (fun e he => hS e (by simp [hsub.subset he])) _ ha,
      replay_off (fun e he => hS e (by simp [he])) _ ha]
  · rw [h, replay_off hS _ ha]

theorem CrashImage.off (h : CrashImage canFlush d evs d') (hS : ∀ e ∈ evs, e.Within S)
    (ha : a ∉ S) :
    d' a = d a := by
  obtain ⟨cut, hcut, hp⟩ := h
  exact hp.off (fun e he => hS e (hcut.subset he)) ha

/-- A cut after a flush finds everything. -/
theorem Persisted.of_flush (h : Persisted true d (evs ++ [Event.flush]) d') :
    d' = replay evs d := by
  obtain ⟨old, new, kept, heq, -, hnew, hsub, rfl⟩ := h
  have hn : new = [] := by
    rcases List.eq_nil_or_concat new with rfl | ⟨u, x, rfl⟩
    · rfl
    · rw [List.concat_eq_append, ← List.append_assoc] at heq
      have hx : Event.flush = x := by simpa using (List.append_inj' heq rfl).2
      exact absurd (by simp [hx]) hnew
  subst hn
  have hk : kept = [] := List.sublist_nil.1 hsub
  rw [List.append_nil] at heq
  rw [hk, ← heq]
  simp [Event.apply]

/-- A device that cannot flush keeps its writes in order. -/
theorem Persisted.of_ordered (h : Persisted false d evs d') : d' = replay evs d := by
  simpa [Persisted] using h

variable {body : List (Event σ)} {x : σ}

/-- Nothing but the commit sector was issued since the last flush. -/
theorem Persisted.of_commit (h : Persisted true d (body ++ [Event.flush, Event.write a x]) d') :
    d' = replay body d ∨ d' = replay (body ++ [Event.write a x]) d := by
  obtain ⟨old, new, kept, heq, hold, hnew, hsub, rfl⟩ := h
  have hn : new = [Event.write a x] ∧ old = body ++ [Event.flush] := by
    rcases List.eq_nil_or_concat new with rfl | ⟨u, y, rfl⟩
    · rw [List.append_nil] at heq
      rcases hold with rfl | ⟨v, rfl⟩
      · exact absurd heq (by simp)
      · rw [show body ++ [Event.flush, Event.write a x]
          = (body ++ [Event.flush]) ++ [Event.write a x] by simp] at heq
        exact absurd (List.append_inj' heq rfl).2 (by simp)
    · rw [List.concat_eq_append, ← List.append_assoc,
        show body ++ [Event.flush, Event.write a x]
          = (body ++ [Event.flush]) ++ [Event.write a x] by simp] at heq
      obtain ⟨h1, h2⟩ := List.append_inj' heq rfl
      rcases List.eq_nil_or_concat u with rfl | ⟨v, z, rfl⟩
      · rw [List.append_nil] at h1
        exact ⟨by simpa using h2.symm, h1.symm⟩
      · rw [List.concat_eq_append, ← List.append_assoc] at h1
        have hz : Event.flush = z := by simpa using (List.append_inj' h1 rfl).2
        exact absurd (by simp [hz]) hnew
  obtain ⟨rfl, rfl⟩ := hn
  rcases List.sublist_singleton.1 hsub with rfl | rfl
  · left; simp [Event.apply]
  · right; simp [Event.apply]

/-! ## The publication rule -/

/-- The events of one publication: the body, a flush if the device has one, the
commit sector, and then at most one more flush. -/
def publication (canFlush : Bool) (body : List (Event σ)) (a : ℕ) (x : σ)
    (flushed : Bool) : List (Event σ) :=
  body ++ (if canFlush then [Event.flush] else []) ++
    Event.write a x :: (if flushed then [Event.flush] else [])

theorem publication_true (body : List (Event σ)) (a : ℕ) (x : σ) (flushed : Bool) :
    publication true body a x flushed =
      (body ++ [Event.flush, Event.write a x]) ++ (if flushed then [Event.flush] else []) := by
  simp [publication]

/-- What comes before a publication is part of its body. -/
theorem append_publication (u : List (Event σ)) (canFlush : Bool) (body : List (Event σ)) (a : ℕ)
    (x : σ) (flushed : Bool) :
    u ++ publication canFlush body a x flushed = publication canFlush (u ++ body) a x flushed := by
  simp [publication]

@[simp] theorem replay_publication (canFlush : Bool) (body : List (Event σ)) (a : ℕ) (x : σ)
    (flushed : Bool) (d : Disk σ) :
    replay (publication canFlush body a x flushed) d = Function.update (replay body d) a x := by
  cases canFlush <;> cases flushed <;> simp [publication, Event.apply]

/-- **The publication rule.**  A cut during a publication leaves the device as it
was outside the sectors `S` of the body, or leaves all of it done. -/
theorem crash_publish {flushed : Bool} (hS : ∀ e ∈ body, e.Within S)
    (h : CrashImage canFlush d (publication canFlush body a x flushed) d') :
    (∀ b ∉ S, d' b = d b) ∨ d' = Function.update (replay body d) a x := by
  obtain ⟨cut, hcut, hp⟩ := h
  -- a cut that does not reach the commit sector has only body events in it
  by_cases hlen : cut.length ≤ (body ++ (if canFlush then [Event.flush] else [])).length
  · left
    intro b hb
    have hpre : cut <+: body ++ (if canFlush then [Event.flush] else []) :=
      List.prefix_of_prefix_length_le hcut (List.prefix_append _ _) hlen
    refine hp.off (fun e he => ?_) hb
    rcases List.mem_append.1 (hpre.subset he) with h1 | h1
    · exact hS e h1
    · split at h1
      · rw [List.mem_singleton.1 h1]; trivial
      · simp at h1
  · cases canFlush with
    | false =>
      right
      have hfull : ∃ w, cut = body ++ Event.write a x :: w ∧ ∀ e ∈ w, e = Event.flush := by
        obtain ⟨r, hr⟩ := hcut
        simp only [publication, Bool.false_eq_true, if_false, List.append_nil] at hr hlen
        obtain ⟨w, hw⟩ : body <+: cut :=
          List.prefix_of_prefix_length_le (List.prefix_append _ _) ⟨r, hr⟩ (by omega)
        rw [← hw, List.append_assoc] at hr
        have hr' := List.append_cancel_left hr
        cases w with
        | nil => simp [← hw] at hlen
        | cons e w =>
          rw [List.cons_append] at hr'
          obtain ⟨rfl, hw'⟩ := List.cons.inj hr'
          refine ⟨w, hw.symm, fun e he => ?_⟩
          have : e ∈ (if flushed then [Event.flush] else []) := by rw [← hw']; simp [he]
          split at this <;> simp_all
      obtain ⟨w, rfl, hw⟩ := hfull
      rw [hp.of_ordered, replay_append, replay_cons, replay_flushes hw]
      rfl
    | true =>
      rw [publication_true] at hcut
      have hshape : cut = body ++ [Event.flush, Event.write a x] ∨
          cut = (body ++ [Event.flush, Event.write a x]) ++ [Event.flush] := by
        have hle := hcut.length_le
        cases flushed with
        | false =>
          left
          rw [if_neg (by simp), List.append_nil] at hcut
          exact hcut.eq_of_length_le (by simp at hlen ⊢; omega)
        | true =>
          rw [if_pos rfl] at hcut
          by_cases hl : cut.length ≤ (body ++ [Event.flush, Event.write a x]).length
          · left
            have := List.prefix_of_prefix_length_le hcut (List.prefix_append _ _) hl
            exact this.eq_of_length_le (by simp at hlen ⊢; omega)
          · right
            exact hcut.eq_of_length_le (by simp at hl hle ⊢; omega)
      rcases hshape with rfl | rfl
      · rcases hp.of_commit with h1 | h1
        · left
          intro b hb
          rw [h1, replay_off hS _ hb]
        · right
          rw [h1, replay_append]
          rfl
      · right
        rw [hp.of_flush]
        simp [Event.apply]

/-- Once the flush after the commit sector has succeeded, the publication is there
for good. -/
theorem publish_certain (h : Persisted true d (publication true body a x true) d') :
    d' = Function.update (replay body d) a x := by
  rw [publication_true, if_pos rfl] at h
  rw [h.of_flush]
  simp [Event.apply]

end CrashDisk
