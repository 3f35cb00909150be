import ZealBringup.Bridge.TaskRing

/-!
# Each edit of the ring

* `TaskLinks.ins_ring`, `.remove_ring`, `.raise_ring` — the edits of a ring leave a ring.
* `TaskLinks.remove_ins` — a task put in and taken out again leaves every other link as it was.
* `TaskLinks.raise_eq_of_inconsistent` — where a link does not lead back nothing is changed.
* `TaskLinks.Off.of_ring` — a task away from the ring stays away.
* `taskQueueIns_eq`, `taskQueueRemove_eq`, `bootstrapWinRaise_eq` — the calls, with the interrupt
  flag and its stack as they were.
-/

namespace ZealBringup.Bridge

open Links Zc

/-! ## The links -/

namespace TaskLinks

variable {l : TaskLinks} {ring : List ℕ} {task pred root : ℕ}

/-- The tasks are linked to a ring. -/
abbrev Ring (l : TaskLinks) (ring : List ℕ) : Prop := IsRing l.last l.next ring

theorem ins_ring (h : l.Ring ring) (hpred : pred ∈ ring) (htask : task ∉ ring) (h0 : task ≠ 0) :
    (l.ins task pred).Ring (insertBefore pred task ring) :=
  h.insertBefore hpred htask h0

theorem remove_eq (h : l.Ring ring) (htask : task ∈ ring) :
    l.remove task =
      (l.setNext (l.last task) (l.next task)).setLast (l.next task) (l.last task) := by
  obtain ⟨-, -, hlast, hnext⟩ := h.mutual htask
  exact if_pos ⟨hlast, hnext⟩

theorem remove_ring (h : l.Ring ring) (htask : task ∈ ring) (hne : ring ≠ [task]) :
    (l.remove task).Ring (ring.erase task) := by
  rw [remove_eq h htask]
  exact h.erase htask hne

/-- The links that a raise makes in a ring. -/
theorem raise_ring (h : l.Ring ring) (htask : task ∈ ring) (hroot : root ∈ ring)
    (hne : task ≠ root) :
    ∃ l', l.raise task root = some l' ∧ l'.Ring (insertBefore root task (ring.erase task)) := by
  obtain ⟨hlast, hnext, hback, hforth⟩ := h.mutual htask
  have hsingle : ring ≠ [task] := by
    intro heq
    rw [heq, List.mem_singleton] at hroot
    exact hne hroot.symm
  have hroot' : root ∈ ring.erase task := (List.mem_erase_of_ne (Ne.symm hne)).mpr hroot
  have hout : task ∉ ring.erase task := fun hmem => absurd rfl ((h.nodup.mem_erase_iff.mp hmem).1)
  have htask0 : task ≠ 0 := fun h0 => h.zero (h0 ▸ htask)
  have herased := h.erase htask hsingle
  have hput := herased.insertBefore hroot' hout htask0
  obtain ⟨htail, -, htailback, -⟩ := herased.mutual hroot'
  have hmutual : ¬ (l.last task = 0 ∨ l.next task = 0 ∨ l.next (l.last task) ≠ task ∨
      l.last (l.next task) ≠ task) := by
    rintro (h0 | h0 | h0 | h0)
    · exact h.zero (h0 ▸ hlast)
    · exact h.zero (h0 ▸ hnext)
    · exact h0 hback
    · exact h0 hforth
  unfold raise
  dsimp only
  rw [if_neg hmutual]
  by_cases hat : task = l.last root
  · -- the task is in its place: out and in again changes nothing
    refine ⟨l, by simp [hat], ?_⟩
    have hroots := (h.mutual hroot).2.2.1
    rw [← hat] at hroots
    have hin : Function.update l.last root task = l.last := Function.update_eq_self_iff.mpr hat
    have hout : Function.update l.next (l.last task) task = l.next :=
      Function.update_eq_self_iff.mpr hback.symm
    rw [hroots, Function.update_self, Function.update_idem, Function.update_idem, hin,
      Function.update_eq_self, hout, Function.update_eq_self_iff.mpr hroots.symm] at hput
    exact hput
  · rw [if_pos hat, if_pos ⟨fun h0 => herased.zero (h0 ▸ htail), htailback⟩]
    refine ⟨_, rfl, ?_⟩
    have htailne := ne_of_mem_of_not_mem htail hout
    rw [Function.update_comm (Ne.symm hne)] at hput
    rw [Function.update_comm htailne] at hput
    exact hput

/-- **Where a link does not lead back nothing is changed**, also after the splice. -/
theorem raise_eq_of_inconsistent
    (h : ¬ (l.next (l.last task) = task ∧ l.last (l.next task) = task) ∨
      l.last root = 0 ∨ l.next (l.last root) ≠ root) :
    (l.raise task root).getD l = l := by
  unfold raise
  dsimp only
  by_cases hmutual : l.last task = 0 ∨ l.next task = 0 ∨ l.next (l.last task) ≠ task ∨
      l.last (l.next task) ≠ task
  · rw [if_pos hmutual]
    rfl
  rw [if_neg hmutual]
  simp only [not_or, not_not] at hmutual
  obtain ⟨-, -, hback, hforth⟩ := hmutual
  by_cases hat : task ≠ l.last root
  · have hroot : root ≠ l.next task := by
      rintro rfl
      exact hat hforth.symm
    have htail : ((l.setNext (l.last task) (l.next task)).setLast (l.next task)
        (l.last task)).last root = l.last root := Function.update_of_ne hroot _ _
    have hbroken : ¬ (l.last root ≠ 0 ∧ ((l.setNext (l.last task) (l.next task)).setLast
        (l.next task) (l.last task)).next (l.last root) = root) := by
      rintro ⟨h0, heq⟩
      rcases h with h | h | h
      · exact h ⟨hback, hforth⟩
      · exact h0 h
      · by_cases hp : l.last root = l.last task
        · simp only [setNext, setLast, hp, Function.update_self] at heq
          exact hroot heq.symm
        · simp only [setNext, setLast, Function.update_of_ne hp] at heq
          exact h heq
    rw [if_pos hat, htail, if_neg hbroken, Option.getD_some]
    -- every link that was written is written back
    have hnexts : Function.update (Function.update (Function.update l.next (l.last task)
        (l.next task)) task (l.next task)) (l.last task) task = l.next := by
      funext y
      by_cases hy : y = l.last task
      · rw [hy, Function.update_self, hback]
      · rw [Function.update_of_ne hy]
        by_cases hyt : y = task
        · rw [hyt, Function.update_self]
        · rw [Function.update_of_ne hyt, Function.update_of_ne hy]
    have hlasts : Function.update (Function.update (Function.update l.last (l.next task)
        (l.last task)) task (l.last task)) (l.next task) task = l.last := by
      funext y
      by_cases hy : y = l.next task
      · rw [hy, Function.update_self, hforth]
      · rw [Function.update_of_ne hy]
        by_cases hyt : y = task
        · rw [hyt, Function.update_self]
        · rw [Function.update_of_ne hyt, Function.update_of_ne hy]
    show TaskLinks.mk _ _ = l
    simp only [setNext, setLast]
    rw [hnexts, hlasts]
  · rw [if_neg hat]
    rfl

/-! ## Away from the ring -/

/-- No link of a task away from the ring is another one. -/
def SameOff (l l' : TaskLinks) (ring : List ℕ) : Prop :=
  ∀ y ∉ ring, l'.next y = l.next y ∧ l'.last y = l.last y

theorem SameOff.refl (l : TaskLinks) (ring : List ℕ) : l.SameOff l ring := fun _ _ => ⟨rfl, rfl⟩

variable {l' : TaskLinks}

theorem SameOff.setNext (h : l.SameOff l' ring) {x : ℕ} (hx : x ∈ ring) (v : ℕ) :
    l.SameOff (l'.setNext x v) ring := by
  intro y hy
  have hne : y ≠ x := fun heq => hy (heq ▸ hx)
  have hkept : (l'.setNext x v).next y = l'.next y := Function.update_of_ne hne _ _
  exact ⟨hkept.trans (h y hy).1, (h y hy).2⟩

theorem SameOff.setLast (h : l.SameOff l' ring) {x : ℕ} (hx : x ∈ ring) (v : ℕ) :
    l.SameOff (l'.setLast x v) ring := by
  intro y hy
  have hne : y ≠ x := fun heq => hy (heq ▸ hx)
  have hkept : (l'.setLast x v).last y = l'.last y := Function.update_of_ne hne _ _
  exact ⟨(h y hy).1, hkept.trans (h y hy).2⟩

theorem ins_sameOff (hpred : pred ∈ ring) (htask : task ∈ ring) (hlast : l.last pred ∈ ring) :
    l.SameOff (l.ins task pred) ring :=
  ((((SameOff.refl l ring).setLast hpred task).setNext hlast task).setLast htask _).setNext htask _

theorem remove_sameOff (hnext : l.next task ∈ ring) (hlast : l.last task ∈ ring) :
    l.SameOff (l.remove task) ring := by
  unfold remove
  dsimp only
  split
  · exact ((SameOff.refl l ring).setNext hlast _).setLast hnext _
  · exact SameOff.refl l ring

theorem raise_sameOff (h : l.Ring ring) (htask : task ∈ ring) (hroot : root ∈ ring)
    (hraise : l.raise task root = some l') : l.SameOff l' ring := by
  obtain ⟨hlast, hnext, -, -⟩ := h.mutual htask
  have hout := ((SameOff.refl l ring).setNext hlast (l.next task)).setLast hnext (l.last task)
  have htail : ((l.setNext (l.last task) (l.next task)).setLast (l.next task)
      (l.last task)).last root ∈ ring := by
    by_cases heq : root = l.next task
    · rw [heq]
      have hself : ((l.setNext (l.last task) (l.next task)).setLast (l.next task)
          (l.last task)).last (l.next task) = l.last task := Function.update_self _ _ _
      rw [hself]
      exact hlast
    · have hother : ((l.setNext (l.last task) (l.next task)).setLast (l.next task)
          (l.last task)).last root = l.last root := Function.update_of_ne heq _ _
      rw [hother]
      exact (h.mutual hroot).1
  unfold raise at hraise
  dsimp only at hraise
  split at hraise
  · exact absurd hraise nofun
  split at hraise
  · split at hraise <;> obtain rfl := Option.some.inj hraise
    · exact (((hout.setLast htask _).setNext htask _).setNext htail _).setLast hroot _
    · exact (((hout.setLast htask _).setNext htask _).setNext hlast _).setLast hnext _
  · obtain rfl := Option.some.inj hraise
    exact SameOff.refl l ring

/-- The `last_task` of the task does not lead back to it. -/
def Off (l : TaskLinks) (u : ℕ) : Prop := l.next (l.last u) ≠ u

/-- A task that was off stays off while others are linked; one that is taken out is off. -/
theorem Off.of_ring {u : ℕ} (h : l'.Ring ring) (hu : u ∉ ring) (hsame : l.SameOff l' ring)
    (hoff : l.last u ∈ ring ∨ l.Off u) : l'.Off u := by
  have hlast := (hsame u hu).2
  by_cases hmem : l.last u ∈ ring
  · intro hback
    rw [hlast] at hback
    exact hu (hback ▸ (h.mutual hmem).2.1)
  · intro hback
    rw [hlast, (hsame _ hmem).1] at hback
    exact hoff.resolve_left hmem hback

/-- The task is linked to itself. -/
def single (l : TaskLinks) (f : ℕ) : TaskLinks := (l.setNext f f).setLast f f

theorem single_ring (h : l.Ring ring) {f : ℕ} (hf : f ∉ ring) : (l.single f).Ring ring := by
  refine h.congr (fun y hy => ?_) fun y hy => ?_
  · exact Function.update_of_ne (ne_of_mem_of_not_mem hy hf) _ _
  · exact Function.update_of_ne (ne_of_mem_of_not_mem hy hf) _ _

theorem Off.single {u f : ℕ} (h : l.Off u) (hne : u ≠ f) : (l.single f).Off u := by
  have hlast : (l.single f).last u = l.last u := Function.update_of_ne hne _ _
  intro hback
  rw [hlast] at hback
  by_cases hf : l.last u = f
  · have hself : (l.single f).next f = f := Function.update_self _ _ _
    rw [hf, hself] at hback
    exact hne hback.symm
  · have hother : (l.single f).next (l.last u) = l.next (l.last u) :=
      Function.update_of_ne hf _ _
    exact h (hother.symm.trans hback)

end TaskLinks

/-! ## The calls -/

namespace Tasks

/-- There is room for the flags. -/
def CanPush (s : Tasks) : Prop := s.bound = true ∧ s.irqStack.length ≠ 8

instance (s : Tasks) : Decidable s.CanPush := inferInstanceAs (Decidable (_ ∧ _))

variable {s : Tasks} {task pred root : ℕ}

theorem taskQueueIns_eq (h : s.CanPush) (task pred : ℕ) :
    s.taskQueueIns task pred = .ok
      (if task = 0 ∨ s.taskValidate (if pred = 0 then s.fs else pred) = false ∨
          s.taskValidate (s.links.last (if pred = 0 then s.fs else pred)) = false then s
      else { s with links := s.links.ins task (if pred = 0 then s.fs else pred) }) := by
  unfold taskQueueIns
  by_cases h0 : task = 0
  · simp [h0]
  · rw [if_neg h0]
    dsimp only
    generalize (if pred = 0 then s.fs else pred) = p
    by_cases hvalid : (!s.taskValidate p || !s.taskValidate (s.links.last p)) = true
    · rw [if_pos hvalid, if_pos]
      simpa [h0] using hvalid
    · rw [if_neg hvalid, if_neg (by simpa [h0] using hvalid)]
      obtain ⟨hbound, hlen⟩ := h
      simp [pushfd, cli, popfd, hbound, hlen, bind, Except.bind]

theorem taskQueueRemove_eq (h : s.CanPush) (task : ℕ) :
    s.taskQueueRemove task = .ok
      (if s.taskValidate task = false ∨ s.taskValidate (s.links.next task) = false ∨
          s.taskValidate (s.links.last task) = false then s
      else { s with links := s.links.remove task }) := by
  unfold taskQueueRemove
  by_cases hvalid : (!s.taskValidate task || !s.taskValidate (s.links.next task) ||
      !s.taskValidate (s.links.last task)) = true
  · rw [if_pos hvalid, if_pos]
    simpa [or_assoc] using hvalid
  · rw [if_neg hvalid, if_neg (by simpa [or_assoc] using hvalid)]
    obtain ⟨hbound, hlen⟩ := h
    simp [pushfd, cli, popfd, hbound, hlen, bind, Except.bind]

theorem bootstrapWinRaise_eq (h : s.CanPush) (task root : ℕ) :
    s.bootstrapWinRaise task root = .ok
      (if task = 0 ∨ root = 0 ∨ s.taskValidate task = false ∨ s.taskValidate root = false then s
      else
        match (if task ≠ root then s.links.raise task root else some s.links) with
        | none => s
        | some links =>
          { s with links, focus := if s.winInhibit task &&& 1 = 0 then task else s.focus }) := by
  unfold bootstrapWinRaise
  by_cases hvalid : (task = 0 || root = 0 || !s.taskValidate task || !s.taskValidate root) = true
  · rw [if_pos hvalid, if_pos]
    simpa [or_assoc] using hvalid
  · rw [if_neg hvalid, if_neg (by simpa [or_assoc] using hvalid)]
    cases hlinks : (if task ≠ root then s.links.raise task root else some s.links) with
    | none =>
      obtain ⟨hbound, hlen⟩ := h
      simp only [pushfd, cli, popfd, hbound, hlen, hlinks, bind, Except.bind, Bool.not_true,
        Bool.false_eq_true, if_false]
      rw [← hbound]
    | some links =>
      obtain ⟨hbound, hlen⟩ := h
      simp only [pushfd, cli, popfd, hbound, hlen, hlinks, bind, Except.bind, Bool.not_true,
        Bool.false_eq_true, if_false]
      rfl

/-- Without room for the flags a call stops before it has changed anything. -/
theorem pushfd_error (h : ¬ s.CanPush) : ∃ e, s.pushfd = .error e := by
  unfold pushfd
  by_cases hbound : s.bound = true
  · have hlen : s.irqStack.length = 8 := by
      by_contra hne
      exact h ⟨hbound, hne⟩
    exact ⟨"RFlagsPush stack full", by simp [hbound, hlen]⟩
  · exact ⟨"RFlagsPush requires a guest task", by simp [hbound]⟩

/-! ### A call that ends -/

variable {s' : Tasks}

theorem taskQueueIns_ok (h : s.taskQueueIns task pred = .ok s') :
    s' = if task = 0 ∨ s.taskValidate (if pred = 0 then s.fs else pred) = false ∨
          s.taskValidate (s.links.last (if pred = 0 then s.fs else pred)) = false then s
      else { s with links := s.links.ins task (if pred = 0 then s.fs else pred) } := by
  by_cases hpush : s.CanPush
  · rw [taskQueueIns_eq hpush] at h
    exact (Except.ok.inj h).symm
  · obtain ⟨e, he⟩ := pushfd_error hpush
    unfold taskQueueIns at h
    by_cases h0 : task = 0
    · rw [if_pos h0] at h
      rw [if_pos (Or.inl h0)]
      exact (Except.ok.inj h).symm
    · rw [if_neg h0] at h
      dsimp only at h
      by_cases hvalid : (!s.taskValidate (if pred = 0 then s.fs else pred) ||
          !s.taskValidate (s.links.last (if pred = 0 then s.fs else pred))) = true
      · rw [if_pos hvalid] at h
        rw [if_pos (by simpa [h0] using hvalid)]
        exact (Except.ok.inj h).symm
      · rw [if_neg hvalid, he] at h
        exact absurd h nofun

theorem taskQueueRemove_ok (h : s.taskQueueRemove task = .ok s') :
    s' = if s.taskValidate task = false ∨ s.taskValidate (s.links.next task) = false ∨
          s.taskValidate (s.links.last task) = false then s
      else { s with links := s.links.remove task } := by
  by_cases hpush : s.CanPush
  · rw [taskQueueRemove_eq hpush] at h
    exact (Except.ok.inj h).symm
  · obtain ⟨e, he⟩ := pushfd_error hpush
    unfold taskQueueRemove at h
    by_cases hvalid : (!s.taskValidate task || !s.taskValidate (s.links.next task) ||
        !s.taskValidate (s.links.last task)) = true
    · rw [if_pos hvalid] at h
      rw [if_pos (by simpa [or_assoc] using hvalid)]
      exact (Except.ok.inj h).symm
    · rw [if_neg hvalid, he] at h
      exact absurd h nofun

theorem bootstrapWinRaise_ok (h : s.bootstrapWinRaise task root = .ok s') :
    s' = s ∨ s.taskValidate task = true ∧ s.taskValidate root = true ∧ ∃ focus,
      s' = { s with
        links := if task ≠ root then (s.links.raise task root).getD s.links else s.links
        focus } := by
  by_cases hpush : s.CanPush
  · rw [bootstrapWinRaise_eq hpush] at h
    obtain rfl := Except.ok.inj h
    split
    · exact Or.inl rfl
    next hvalid =>
      simp only [not_or, Bool.not_eq_false] at hvalid
      cases hlinks : (if task ≠ root then s.links.raise task root else some s.links) with
      | none => exact Or.inl rfl
      | some links =>
        refine Or.inr ⟨hvalid.2.2.1, hvalid.2.2.2,
          (if s.winInhibit task &&& 1 = 0 then task else s.focus), ?_⟩
        have hgot : (if task ≠ root then (s.links.raise task root).getD s.links else s.links) =
            links := by
          split at hlinks
          next hne => rw [if_pos hne, hlinks, Option.getD_some]
          next hne => rw [if_neg hne, Option.some.inj hlinks]
        rw [hgot]
  · obtain ⟨e, he⟩ := pushfd_error hpush
    unfold bootstrapWinRaise at h
    split at h
    · exact Or.inl (Except.ok.inj h).symm
    · rw [he] at h
      exact absurd h nofun

end Tasks

end ZealBringup.Bridge
