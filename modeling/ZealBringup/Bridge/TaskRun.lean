import ZealBringup.Bridge.TaskCalls

/-!
# The ring of the tasks over a run

Guest and host edit the same ring.  In every run of their calls the live tasks, without the
executive and those that the guest has taken out, stay linked to one ring, so the checks of the
host never find a wrong link.

* `HostRing` — the ring, with the tasks that are taken out.
* `HostRing.exec` — what one call makes of it.
* `HostRing.run` — what a run makes of it.
* `HostRing.focusNext`, `HostRing.unlink` — the checks of the host.
-/

namespace ZealBringup.Bridge

open Links Zc

attribute [local instance] guestTasksPos

/-! ## The live tasks -/

namespace Tasks

/-- A live task other than the executive. -/
def IsRingTask (s : Tasks) (t : ℕ) : Prop :=
  s.taskValidate t = true ∧ t ≠ s.words GUEST_EXECUTIVE

instance (s : Tasks) (t : ℕ) : Decidable (s.IsRingTask t) := inferInstanceAs (Decidable (_ ∧ _))

/-- Each task has a place of its own, and a live one its address and signature. -/
structure Signed (s : Tasks) : Prop where
  words_inj : Function.Injective s.words
  words_ne : ∀ i, s.words i ≠ 0
  signed : ∀ i, (s.fibers i).state = .runnable →
    (s.fibers i).addr = s.words i ∧ (s.fibers i).sign = [84, 115, 107, 83]

variable {s s' : Tasks} {t : ℕ}

theorem findTask_spec {i : Fin GUEST_TASKS} (h : s.findTask t = some i) :
    s.words i = t ∧ (s.fibers i).state = .runnable := by
  have hfound := List.find?_some h
  simpa using hfound

theorem Signed.taskValidate_iff (h : s.Signed) :
    s.taskValidate t = true ↔ ∃ i, s.words i = t ∧ (s.fibers i).state = .runnable := by
  constructor
  · intro hvalid
    unfold taskValidate at hvalid
    cases hfind : s.findTask t with
    | none => rw [hfind] at hvalid; exact absurd hvalid Bool.false_ne_true
    | some i => exact ⟨i, findTask_spec hfind⟩
  · rintro ⟨i, rfl, hlive⟩
    unfold taskValidate
    cases hfind : s.findTask (s.words i) with
    | none =>
      have hnone := List.find?_eq_none.mp hfind i (List.mem_finRange i)
      simp [hlive] at hnone
    | some j =>
      obtain ⟨-, hj⟩ := findTask_spec hfind
      obtain ⟨haddr, hsign⟩ := h.signed j hj
      simp [haddr, hsign]

theorem Signed.isRingTask_iff (h : s.Signed) :
    s.IsRingTask t ↔
      ∃ i, i ≠ GUEST_EXECUTIVE ∧ s.words i = t ∧ (s.fibers i).state = .runnable := by
  unfold IsRingTask
  rw [h.taskValidate_iff]
  constructor
  · rintro ⟨⟨i, rfl, hlive⟩, hne⟩
    exact ⟨i, fun heq => hne (heq ▸ rfl), rfl, hlive⟩
  · rintro ⟨i, hne, rfl, hlive⟩
    exact ⟨⟨i, rfl, hlive⟩, fun heq => hne (h.words_inj heq)⟩

theorem Signed.not_taskValidate_zero (h : s.Signed) : s.taskValidate 0 = false := by
  rw [Bool.eq_false_iff, Ne, h.taskValidate_iff]
  rintro ⟨i, hi, -⟩
  exact h.words_ne i hi

end Tasks

/-! ## The calls of a run -/

/-- What the guest and the host do to the ring. -/
inductive TaskCall where
  | raise (task root : ℕ)
  | ins (task pred : ℕ)
  | remove (task : ℕ)
  | executive
  | spawn (parent : ℕ) (kind : GuestEntry) (codeLives : Bool) (stackSize : UInt64)
  | finish (i : Fin GUEST_TASKS)

namespace Tasks

def exec (s : Tasks) : TaskCall → Run Tasks
  | .raise task root => s.bootstrapWinRaise task root
  | .ins task pred => s.taskQueueIns task pred
  | .remove task => s.taskQueueRemove task
  | .executive => .ok s.ensureGuestExecutive
  | .spawn parent kind codeLives stackSize =>
    (s.newGuestFiber parent kind codeLives stackSize).map Prod.snd
  | .finish i => s.finishGuest i

/-- The guest raises any task but the executive, puts back what it has taken out, and takes out any
task but the executive and the root. -/
def Allowed (s : Tasks) (out : Finset ℕ) : TaskCall → Prop
  | .raise task root => task ≠ s.words GUEST_EXECUTIVE ∧ root ≠ s.words GUEST_EXECUTIVE
  | .ins task pred => task ∈ out ∧ s.IsRingTask (if pred = 0 then s.fs else pred) ∧
      (if pred = 0 then s.fs else pred) ∉ out
  | .remove task => task ≠ s.words GUEST_EXECUTIVE ∧ task ≠ s.words 0
  | .executive | .spawn .. | .finish _ => True

/-- The tasks that are taken out, after a call. -/
def outAfter (s : Tasks) (out : Finset ℕ) : TaskCall → Finset ℕ
  | .ins task _ => out.erase task
  | .remove task => if s.IsRingTask task then insert task out else out
  | .raise .. | .executive | .spawn .. | .finish _ => out

end Tasks

/-- A run of calls from a state, with the tasks that are taken out. -/
inductive TaskRun (s : Tasks) (out : Finset ℕ) : Tasks → Finset ℕ → Prop
  | nil : TaskRun s out s out
  | step {t t' : Tasks} {outs : Finset ℕ} {c : TaskCall} (hrun : TaskRun s out t outs)
      (hallowed : t.Allowed outs c) (hexec : t.exec c = .ok t') :
      TaskRun s out t' (t.outAfter outs c)

/-! ## The invariant -/

/-- The live tasks that are not taken out are linked to a ring, each once. -/
structure HostRing (s : Tasks) (out : Finset ℕ) (ring : List ℕ) : Prop extends s.Signed where
  root : (s.fibers 0).state = .runnable
  rootParent : (s.fibers 0).parent = 0
  isRing : s.links.Ring ring
  mem : ∀ t, t ∈ ring ↔ s.IsRingTask t ∧ t ∉ out
  out : ∀ t ∈ out, s.IsRingTask t ∧ t ≠ s.words 0 ∧ s.links.Off t

namespace HostRing

open Tasks TaskLinks

variable {s s' : Tasks} {out out' : Finset ℕ} {ring ring' : List ℕ} {task pred root : ℕ}

theorem root_mem (h : HostRing s out ring) : s.words 0 ∈ ring := by
  rw [h.mem, h.isRingTask_iff]
  exact ⟨⟨0, by decide, rfl, h.root⟩, fun hout => (h.out _ hout).2.1 rfl⟩

theorem not_mem_ring (h : HostRing s out ring) {t : ℕ} (ht : t ∈ out) : t ∉ ring := by
  intro hmem
  exact ((h.mem t).mp hmem).2 ht

/-- Only the links are changed, and the task that has the focus. -/
theorem relink (h : HostRing s out ring) {links : TaskLinks} (hring : links.Ring ring')
    (hmem : ∀ t, t ∈ ring' ↔ s.IsRingTask t ∧ t ∉ out')
    (hout : ∀ t ∈ out', s.IsRingTask t ∧ t ≠ s.words 0 ∧ links.Off t) (focus : ℕ) :
    HostRing { s with links, focus } out' ring' :=
  ⟨⟨h.words_inj, h.words_ne, h.signed⟩, h.root, h.rootParent, hring, hmem, hout⟩

/-! ### The calls of the guest -/

/-- Whatever the guest raises, the ring has the members that it had. -/
theorem raise (h : HostRing s out ring) (htask : task ≠ s.words GUEST_EXECUTIVE)
    (hroot : root ≠ s.words GUEST_EXECUTIVE) (hexec : s.bootstrapWinRaise task root = .ok s') :
    ∃ ring', HostRing s' out ring' := by
  obtain rfl | ⟨hvt, hvr, focus, rfl⟩ := bootstrapWinRaise_ok hexec
  · exact ⟨ring, h⟩
  by_cases hne : task ≠ root
  · rw [if_pos hne]
    by_cases hin : task ∈ ring ∧ root ∈ ring
    · obtain ⟨htin, hrin⟩ := hin
      obtain ⟨links, hlinks, hring⟩ := raise_ring h.isRing htin hrin hne
      have hperm : (insertBefore root task (ring.erase task)).Perm ring :=
        (insertBefore_perm ((List.mem_erase_of_ne (Ne.symm hne)).mpr hrin)).trans
          (List.perm_cons_erase htin).symm
      have hsame := raise_sameOff h.isRing htin hrin hlinks
      rw [hlinks, Option.getD_some]
      refine ⟨_, h.relink hring (fun t => ?_) (fun t ht => ?_) focus⟩
      · rw [hperm.mem_iff, h.mem]
      · obtain ⟨hlive, hnroot, hoff⟩ := h.out t ht
        refine ⟨hlive, hnroot, Off.of_ring hring ?_ (fun y hy => ?_) (Or.inr hoff)⟩
        · rw [hperm.mem_iff]
          exact h.not_mem_ring ht
        · exact hsame y fun hmem => hy (hperm.mem_iff.mpr hmem)
    · -- one of the two is taken out, and its links do not lead back
      have hoff : s.links.Off task ∨ s.links.Off root := by
        by_contra hon
        rw [not_or] at hon
        refine hin ⟨(h.mem task).mpr ⟨⟨hvt, htask⟩, fun hout => hon.1 (h.out _ hout).2.2⟩, ?_⟩
        exact (h.mem root).mpr ⟨⟨hvr, hroot⟩, fun hout => hon.2 (h.out _ hout).2.2⟩
      have hkept : (s.links.raise task root).getD s.links = s.links := by
        apply raise_eq_of_inconsistent
        exact hoff.imp (fun hoff hboth => hoff hboth.1) Or.inr
      rw [hkept]
      exact ⟨ring, h.relink h.isRing h.mem h.out focus⟩
  · rw [if_neg hne]
    exact ⟨ring, h.relink h.isRing h.mem h.out focus⟩

theorem ins (h : HostRing s out ring) (htask : task ∈ out)
    (hpred : s.IsRingTask (if pred = 0 then s.fs else pred))
    (hin : (if pred = 0 then s.fs else pred) ∉ out)
    (hexec : s.taskQueueIns task pred = .ok s') : ∃ ring', HostRing s' (out.erase task) ring' := by
  obtain rfl := taskQueueIns_ok hexec
  generalize (if pred = 0 then s.fs else pred) = p at *
  have hp : p ∈ ring := (h.mem p).mpr ⟨hpred, hin⟩
  have hlast := (h.isRing.mutual hp).1
  have htask' := h.not_mem_ring htask
  obtain ⟨hlive, hnroot, -⟩ := h.out task htask
  have h0 : task ≠ 0 := by
    rintro rfl
    exact absurd hlive.1 (by rw [h.not_taskValidate_zero]; exact Bool.false_ne_true)
  have hvalid : ¬ (task = 0 ∨ s.taskValidate p = false ∨
      s.taskValidate (s.links.last p) = false) := by
    rintro (hz | hz | hz)
    · exact h0 hz
    · exact absurd hpred.1 (by rw [hz]; exact Bool.false_ne_true)
    · exact absurd ((h.mem _).mp hlast).1.1 (by rw [hz]; exact Bool.false_ne_true)
  rw [if_neg hvalid]
  have hring := ins_ring h.isRing hp htask' h0
  have hmem : ∀ t, t ∈ insertBefore p task ring ↔ t = task ∨ t ∈ ring := fun t => by
    rw [(insertBefore_perm hp).mem_iff, List.mem_cons]
  have hsame : s.links.SameOff (s.links.ins task p) (insertBefore p task ring) :=
    ins_sameOff ((hmem p).mpr (Or.inr hp)) ((hmem task).mpr (Or.inl rfl))
      ((hmem _).mpr (Or.inr hlast))
  refine ⟨_, h.relink hring (fun t => ?_) (fun t ht => ?_) s.focus⟩
  · rw [hmem, h.mem, Finset.mem_erase, not_and]
    constructor
    · rintro (rfl | ⟨hlive', hnot⟩)
      · exact ⟨hlive, fun hne => absurd rfl hne⟩
      · exact ⟨hlive', fun _ => hnot⟩
    · rintro ⟨hlive', hnot⟩
      by_cases heq : t = task
      · exact Or.inl heq
      · exact Or.inr ⟨hlive', hnot heq⟩
  · obtain ⟨hne, ht⟩ := Finset.mem_erase.mp ht
    obtain ⟨hlive', hnroot', hoff⟩ := h.out t ht
    refine ⟨hlive', hnroot', Off.of_ring hring ?_ hsame (Or.inr hoff)⟩
    rw [hmem, not_or]
    exact ⟨hne, h.not_mem_ring ht⟩

theorem remove (h : HostRing s out ring) (hexecutive : task ≠ s.words GUEST_EXECUTIVE)
    (htask : task ≠ s.words 0) (hexec : s.taskQueueRemove task = .ok s') :
    ∃ ring', HostRing s' (if s.IsRingTask task then insert task out else out) ring' := by
  obtain rfl := taskQueueRemove_ok hexec
  by_cases hin : task ∈ ring
  · have hlive := ((h.mem task).mp hin).1
    obtain ⟨hlast, hnext, -, -⟩ := h.isRing.mutual hin
    have hvalid : ¬ (s.taskValidate task = false ∨ s.taskValidate (s.links.next task) = false ∨
        s.taskValidate (s.links.last task) = false) := by
      rintro (hz | hz | hz)
      · exact absurd hlive.1 (by rw [hz]; exact Bool.false_ne_true)
      · exact absurd ((h.mem _).mp hnext).1.1 (by rw [hz]; exact Bool.false_ne_true)
      · exact absurd ((h.mem _).mp hlast).1.1 (by rw [hz]; exact Bool.false_ne_true)
    have hne : ring ≠ [task] := by
      intro heq
      have hroot := h.root_mem
      rw [heq, List.mem_singleton] at hroot
      exact htask hroot.symm
    have hother : ∀ y ∈ ring, y ≠ task → y ∈ ring.erase task := fun y hy hyne =>
      (List.mem_erase_of_ne hyne).mpr hy
    have hlastne : s.links.last task ≠ task := fun heq => hne
      (h.isRing.eq_singleton hin (by have := (h.isRing.mutual hin).2.2.1; rwa [heq] at this))
    have hnextne : s.links.next task ≠ task := fun heq => hne (h.isRing.eq_singleton hin heq)
    have hring := remove_ring h.isRing hin hne
    have hsame : s.links.SameOff (s.links.remove task) (ring.erase task) :=
      remove_sameOff (hother _ hnext hnextne) (hother _ hlast hlastne)
    rw [if_neg hvalid, if_pos hlive]
    refine ⟨_, h.relink hring (fun t => ?_) (fun t ht => ?_) s.focus⟩
    · rw [h.isRing.nodup.mem_erase_iff, h.mem, Finset.mem_insert, not_or]
      constructor
      · rintro ⟨htne, hlive', hnot⟩
        exact ⟨hlive', htne, hnot⟩
      · rintro ⟨hlive', htne, hnot⟩
        exact ⟨htne, hlive', hnot⟩
    · obtain rfl | ht := Finset.mem_insert.mp ht
      · refine ⟨hlive, htask, Off.of_ring hring ?_ hsame (Or.inl (hother _ hlast hlastne))⟩
        exact fun hmem => (h.isRing.nodup.mem_erase_iff.mp hmem).1 rfl
      · obtain ⟨hlive', hnroot', hoff⟩ := h.out t ht
        refine ⟨hlive', hnroot', Off.of_ring hring ?_ hsame (Or.inr hoff)⟩
        exact fun hmem => h.not_mem_ring ht (List.mem_of_mem_erase hmem)
  · -- a task that is taken out already, or none at all: nothing is changed
    by_cases hlive : s.IsRingTask task
    · have hout : task ∈ out := by
        by_contra hnot
        exact hin ((h.mem task).mpr ⟨hlive, hnot⟩)
      have hlinks : s.links.remove task = s.links :=
        if_neg fun hboth => (h.out task hout).2.2 hboth.1
      rw [if_pos hlive, Finset.insert_eq_self.mpr hout, hlinks]
      refine ⟨ring, ?_⟩
      split <;> exact h
    · have hvalid : s.taskValidate task = false := by
        by_contra htrue
        exact hlive ⟨Bool.not_eq_false _ ▸ htrue, hexecutive⟩
      rw [if_neg hlive, if_pos (Or.inl hvalid)]
      exact ⟨ring, h⟩

/-! ### The calls of the host -/

variable {i : Fin GUEST_TASKS}

theorem initGuestFiber_other (s : Tasks) {j : Fin GUEST_TASKS} (parent : ℕ) (hji : j ≠ i) :
    (s.initGuestFiber i parent).fibers j = s.fibers j := Function.update_of_ne hji _ _

/-- A place is taken by a new task, which is linked to itself. -/
theorem initGuestFiber (h : HostRing s out ring) (hi : i ≠ 0)
    (hfree : (s.fibers i).state ≠ .runnable) (parent : ℕ) :
    (s.initGuestFiber i parent).Signed ∧
      (∀ t, (s.initGuestFiber i parent).IsRingTask t ↔
        s.IsRingTask t ∨ i ≠ GUEST_EXECUTIVE ∧ t = s.words i) ∧
      (s.initGuestFiber i parent).links.Ring ring ∧
      ∀ t ∈ out, (s.initGuestFiber i parent).links.Off t := by
  have hsigned : (s.initGuestFiber i parent).Signed := by
    refine ⟨h.words_inj, h.words_ne, fun j hj => ?_⟩
    by_cases hji : j = i
    · subst hji
      simp [Tasks.initGuestFiber]
    · rw [initGuestFiber_other s parent hji] at hj ⊢
      exact h.signed j hj
  have hnot : ¬ s.IsRingTask (s.words i) := by
    rw [h.isRingTask_iff]
    rintro ⟨j, -, hj, hlive⟩
    exact hfree (h.words_inj hj ▸ hlive)
  refine ⟨hsigned, fun t => ?_, ?_, fun t ht => ?_⟩
  · rw [hsigned.isRingTask_iff, h.isRingTask_iff]
    constructor
    · rintro ⟨j, hj, rfl, hlive⟩
      by_cases hji : j = i
      · exact Or.inr ⟨hji ▸ hj, hji ▸ rfl⟩
      · exact Or.inl ⟨j, hj, rfl, initGuestFiber_other s parent hji ▸ hlive⟩
    · rintro (⟨j, hj, rfl, hlive⟩ | ⟨hi', rfl⟩)
      · have hji : j ≠ i := fun heq => hfree (heq ▸ hlive)
        exact ⟨j, hj, rfl, (initGuestFiber_other s parent hji).symm ▸ hlive⟩
      · exact ⟨i, hi', rfl, by simp [Tasks.initGuestFiber]⟩
  · exact single_ring h.isRing fun hmem => hnot ((h.mem _).mp hmem).1
  · obtain ⟨hlive, -, hoff⟩ := h.out t ht
    exact hoff.single fun heq => hnot (heq ▸ hlive)

theorem executive (h : HostRing s out ring) : HostRing s.ensureGuestExecutive out ring := by
  unfold ensureGuestExecutive
  by_cases hlive : (s.fibers GUEST_EXECUTIVE).state = .runnable
  · rwa [if_pos hlive]
  · rw [if_neg hlive]
    obtain ⟨hsigned, htask, hring, hoff⟩ := h.initGuestFiber (by decide) hlive (s.words 0)
    have hsame := initGuestFiber_other s (i := GUEST_EXECUTIVE) (s.words 0)
      (show (0 : Fin GUEST_TASKS) ≠ GUEST_EXECUTIVE by decide)
    refine ⟨hsigned, hsame ▸ h.root, hsame ▸ h.rootParent, hring, fun t => ?_, fun t ht => ?_⟩
    · rw [h.mem, htask]
      simp
    · obtain ⟨hin, hne, -⟩ := h.out t ht
      exact ⟨(htask t).mpr (Or.inl hin), hne, hoff t ht⟩

variable {kind : GuestEntry}

theorem freeFiber_spec (h : s.freeFiber kind = some i) :
    i ≠ 0 ∧ i ≠ GUEST_EXECUTIVE ∧ (s.fibers i).state ≠ .runnable := by
  have hfound := List.find?_some h
  rw [Bool.and_eq_true, bne_iff_ne] at hfound
  obtain ⟨hplace, hidle⟩ := hfound
  refine ⟨?_, ?_, hidle⟩ <;> rintro rfl <;> cases kind <;> exact absurd hplace (by decide)

/-- What `new_guest_fiber` does when it ends. -/
theorem newGuestFiber_ok {parent : ℕ} {codeLives : Bool} {stackSize : UInt64}
    {r : Option (Fin GUEST_TASKS)}
    (h : s.newGuestFiber parent kind codeLives stackSize = .ok (r, s')) :
    s' = s ∨ ∃ i nextSibling lastSibling, s.freeFiber kind = some i ∧
      s' = { s.initGuestFiber i parent with
        links :=
          let l := (s.initGuestFiber i parent).links
          (((l.setNext (s.words i) (s.words 0)).setLast (s.words i) (l.last (s.words 0))).setNext
            (l.last (s.words 0)) (s.words i)).setLast (s.words 0) (s.words i)
        nextSibling
        lastSibling } := by
  unfold newGuestFiber at h
  split at h
  · exact Or.inl (Prod.ext_iff.mp (Except.ok.inj h)).2.symm
  split at h
  · exact Or.inl (Prod.ext_iff.mp (Except.ok.inj h)).2.symm
  split at h
  · exact Or.inl (Prod.ext_iff.mp (Except.ok.inj h)).2.symm
  next i hfree =>
    dsimp only at h
    split at h
    · exact absurd h nofun
    split at h
    · exact absurd h nofun
    · exact Or.inr ⟨i, _, _, hfree, (Prod.ext_iff.mp (Except.ok.inj h)).2.symm⟩

theorem spawn (h : HostRing s out ring) {parent : ℕ} {codeLives : Bool} {stackSize : UInt64}
    {r : Option (Fin GUEST_TASKS)}
    (hexec : s.newGuestFiber parent kind codeLives stackSize = .ok (r, s')) :
    ∃ ring', HostRing s' out ring' := by
  obtain rfl | ⟨i, nextSibling, lastSibling, hfree, rfl⟩ := newGuestFiber_ok hexec
  · exact ⟨ring, h⟩
  obtain ⟨hi, hi', hidle⟩ := freeFiber_spec hfree
  obtain ⟨hsigned, htask, hring, hoff⟩ := h.initGuestFiber hi hidle parent
  have hsame := initGuestFiber_other s parent (Ne.symm hi)
  have hnew : ¬ s.IsRingTask (s.words i) := by
    rw [h.isRingTask_iff]
    rintro ⟨j, -, hj, hlive⟩
    exact hidle (h.words_inj hj ▸ hlive)
  have hout : s.words i ∉ ring := fun hmem => hnew ((h.mem _).mp hmem).1
  generalize hs : s.initGuestFiber i parent = t at *
  have hwords : t.words = s.words := hs ▸ rfl
  have hlast := (hring.mutual h.root_mem).1
  -- the writes are those of an insertion before the root
  have hins : (((t.links.setNext (s.words i) (s.words 0)).setLast (s.words i)
      (t.links.last (s.words 0))).setNext (t.links.last (s.words 0)) (s.words i)).setLast
        (s.words 0) (s.words i) = t.links.ins (s.words i) (s.words 0) := by
    have hroot : s.words i ≠ s.words 0 := fun heq => hi (h.words_inj heq)
    have htail : s.words i ≠ t.links.last (s.words 0) := fun heq => hout (heq ▸ hlast)
    show TaskLinks.mk _ _ = TaskLinks.mk _ _
    rw [TaskLinks.mk.injEq]
    exact ⟨Function.update_comm htail _ _ _, Function.update_comm hroot _ _ _⟩
  have hring' := ins_ring hring h.root_mem hout (h.words_ne i)
  have hmem : ∀ u, u ∈ insertBefore (s.words 0) (s.words i) ring ↔ u = s.words i ∨ u ∈ ring :=
    fun u => by rw [(insertBefore_perm h.root_mem).mem_iff, List.mem_cons]
  have hkept : t.links.SameOff (t.links.ins (s.words i) (s.words 0))
      (insertBefore (s.words 0) (s.words i) ring) :=
    ins_sameOff ((hmem _).mpr (Or.inr h.root_mem)) ((hmem _).mpr (Or.inl rfl))
      ((hmem _).mpr (Or.inr hlast))
  dsimp only
  rw [hins]
  refine ⟨_, ⟨hsigned.words_inj, hsigned.words_ne, hsigned.signed⟩, hsame ▸ h.root,
    hsame ▸ h.rootParent, hring', fun u => ?_, fun u hu => ?_⟩
  · have hiff : u ∈ insertBefore (s.words 0) (s.words i) ring ↔ t.IsRingTask u ∧ u ∉ out := by
      rw [hmem, h.mem, htask]
      constructor
      · rintro (rfl | ⟨hlive, hnot⟩)
        · exact ⟨Or.inr ⟨hi', rfl⟩, fun hu => hnew (h.out _ hu).1⟩
        · exact ⟨Or.inl hlive, hnot⟩
      · rintro ⟨hlive | ⟨-, rfl⟩, hnot⟩
        · exact Or.inr ⟨hlive, hnot⟩
        · exact Or.inl rfl
    exact hiff
  · obtain ⟨hlive, hnroot, -⟩ := h.out u hu
    have hne : u ≠ s.words i := fun heq => hnew (heq ▸ hlive)
    have hoff' : (t.links.ins (s.words i) (s.words 0)).Off u := by
      refine Off.of_ring hring' ?_ hkept (Or.inr (hoff u hu))
      rw [hmem, not_or]
      exact ⟨hne, h.not_mem_ring hu⟩
    have hlive' : t.IsRingTask u := (htask u).mpr (Or.inl hlive)
    exact ⟨hlive', hwords.symm ▸ hnroot, hoff'⟩

/-- What `unlink_fiber` does when it ends. -/
theorem unlinkFiber_ok (h : s.unlinkFiber i = .ok s') :
    s.taskValidate (s.fibers i).parent = true ∧
      s.links.next (s.links.last (s.words i)) = s.words i ∧
      s.links.last (s.links.next (s.words i)) = s.words i ∧ ∃ nextSibling lastSibling,
        s' = { s with
          links := (s.links.remove (s.words i)).single (s.words i), nextSibling, lastSibling } := by
  unfold unlinkFiber at h
  dsimp only at h
  split at h
  · exact absurd h nofun
  next hparent =>
    split at h
    · exact absurd h nofun
    split at h
    · exact absurd h nofun
    next hlinks =>
      simp only [Bool.or_eq_true, bne_iff_ne, not_or, not_not] at hlinks
      obtain ⟨⟨-, hback⟩, hforth⟩ := hlinks
      obtain rfl := Except.ok.inj h
      refine ⟨by simpa using hparent, hback, hforth, ?_⟩
      have hremove : s.links.remove (s.words i) =
          (s.links.setNext (s.links.last (s.words i)) (s.links.next (s.words i))).setLast
            (s.links.next (s.words i)) (s.links.last (s.words i)) := if_pos ⟨hback, hforth⟩
      rw [hremove]
      exact ⟨_, _, rfl⟩

/-- The children of a task, and the popup of another, are nothing to the ring. -/
theorem clearPopup (h : HostRing s out ring) (i : Fin GUEST_TASKS) :
    HostRing { s with fibers := Function.update s.fibers i { s.fibers i with popup := 0 } } out
      ring := by
  have hfiber : ∀ j, (Function.update s.fibers i { s.fibers i with popup := 0 } j).state =
      (s.fibers j).state ∧
      (Function.update s.fibers i { s.fibers i with popup := 0 } j).addr = (s.fibers j).addr ∧
      (Function.update s.fibers i { s.fibers i with popup := 0 } j).sign = (s.fibers j).sign ∧
      (Function.update s.fibers i { s.fibers i with popup := 0 } j).parent =
        (s.fibers j).parent := by
    intro j
    by_cases hji : j = i
    · subst hji
      simp
    · simp [Function.update_of_ne hji]
  generalize hs : { s with fibers := Function.update s.fibers i { s.fibers i with popup := 0 } } =
    t
  have hfibers : t.fibers = Function.update s.fibers i { s.fibers i with popup := 0 } := hs ▸ rfl
  have hwords : t.words = s.words := hs ▸ rfl
  have hlinks : t.links = s.links := hs ▸ rfl
  rw [← hfibers] at hfiber
  have hsigned : t.Signed := by
    refine ⟨hwords ▸ h.words_inj, hwords ▸ h.words_ne, fun j hj => ?_⟩
    rw [(hfiber j).2.1, (hfiber j).2.2.1, hwords]
    exact h.signed j ((hfiber j).1 ▸ hj)
  have htask : ∀ u, t.IsRingTask u ↔ s.IsRingTask u := fun u => by
    simp only [hsigned.isRingTask_iff, h.isRingTask_iff, hwords, (hfiber _).1]
  refine ⟨hsigned, (hfiber 0).1.trans h.root, (hfiber 0).2.2.2.trans h.rootParent,
    hlinks ▸ h.isRing, fun u => ?_, fun u hu => ?_⟩
  · rw [htask, h.mem]
  · rw [htask, hwords, hlinks]
    exact h.out u hu

/-- A task that is linked to itself ends. -/
theorem ended (h : s.Signed) (hi : i ≠ 0) (hroot : (s.fibers 0).state = .runnable)
    (hparent : (s.fibers 0).parent = 0) (hring : s.links.Ring ring)
    (hmem : ∀ t, t ∈ ring ↔ (s.IsRingTask t ∧ t ≠ s.words i) ∧ t ∉ out)
    (hout : ∀ t ∈ out, (s.IsRingTask t ∧ t ≠ s.words i) ∧ t ≠ s.words 0 ∧ s.links.Off t)
    (focus : ℕ) :
    HostRing { s with
      fibers := Function.update s.fibers i { s.fibers i with state := .done, sign := [0, 0, 0, 0] }
      focus } out ring := by
  generalize hs : { s with
    fibers := Function.update s.fibers i { s.fibers i with state := .done, sign := [0, 0, 0, 0] }
    focus } = t
  have hwords : t.words = s.words := hs ▸ rfl
  have hlinks : t.links = s.links := hs ▸ rfl
  have hself : (t.fibers i).state = .done := by
    rw [← hs]
    simp
  have hother : ∀ j, j ≠ i → t.fibers j = s.fibers j := fun j hji => by
    rw [← hs]
    exact Function.update_of_ne hji _ _
  have hsigned : t.Signed := by
    refine ⟨hwords ▸ h.words_inj, hwords ▸ h.words_ne, fun j hj => ?_⟩
    have hji : j ≠ i := by
      rintro rfl
      rw [hself] at hj
      exact absurd hj nofun
    rw [hother j hji] at hj ⊢
    exact hwords ▸ h.signed j hj
  have htask : ∀ u, t.IsRingTask u ↔ s.IsRingTask u ∧ u ≠ s.words i := fun u => by
    rw [hsigned.isRingTask_iff, h.isRingTask_iff, hwords]
    constructor
    · rintro ⟨j, hj, rfl, hlive⟩
      have hji : j ≠ i := by
        rintro rfl
        rw [hself] at hlive
        exact absurd hlive nofun
      exact ⟨⟨j, hj, rfl, hother j hji ▸ hlive⟩, fun heq => hji (h.words_inj heq)⟩
    · rintro ⟨⟨j, hj, rfl, hlive⟩, hne⟩
      exact ⟨j, hj, rfl, (hother j fun heq => hne (heq ▸ rfl)).symm ▸ hlive⟩
  refine ⟨hsigned, hother 0 (Ne.symm hi) ▸ hroot, hother 0 (Ne.symm hi) ▸ hparent,
    hlinks ▸ hring, fun u => ?_, fun u hu => ?_⟩
  · rw [hmem, htask]
  · rw [htask, hwords, hlinks]
    exact hout u hu

/-- The task of the ring that is taken out by the host is linked to itself. -/
theorem unlinked (h : HostRing s out ring) (hi : i ≠ 0) (hin : s.words i ∈ ring) :
    ((s.links.remove (s.words i)).single (s.words i)).Ring (ring.erase (s.words i)) ∧
      ∀ t ∈ out, ((s.links.remove (s.words i)).single (s.words i)).Off t := by
  obtain ⟨hlast, hnext, -, -⟩ := h.isRing.mutual hin
  have hne : ring ≠ [s.words i] := by
    intro heq
    have hroot := h.root_mem
    rw [heq, List.mem_singleton] at hroot
    exact hi (h.words_inj hroot).symm
  have hlastne : s.links.last (s.words i) ≠ s.words i := fun heq => hne
    (h.isRing.eq_singleton hin (by have := (h.isRing.mutual hin).2.2.1; rwa [heq] at this))
  have hnextne : s.links.next (s.words i) ≠ s.words i := fun heq =>
    hne (h.isRing.eq_singleton hin heq)
  have hring := remove_ring h.isRing hin hne
  have hsame : s.links.SameOff (s.links.remove (s.words i)) (ring.erase (s.words i)) :=
    remove_sameOff ((List.mem_erase_of_ne hnextne).mpr hnext)
      ((List.mem_erase_of_ne hlastne).mpr hlast)
  refine ⟨single_ring hring fun hmem => (h.isRing.nodup.mem_erase_iff.mp hmem).1 rfl,
    fun t ht => ?_⟩
  have hout : t ∉ ring := h.not_mem_ring ht
  have hoff := Off.of_ring hring (fun hmem => hout (List.mem_of_mem_erase hmem)) hsame
    (Or.inr (h.out t ht).2.2)
  exact hoff.single (ne_of_mem_of_not_mem hin hout).symm

/-- The host takes the task out, unless it is the executive. -/
theorem finish_rest (h : HostRing s out ring) {i : Fin GUEST_TASKS}
    (hlive : (s.fibers i).state = .runnable)
    (hexec : (do
      let s ← if i ≠ GUEST_EXECUTIVE then s.unlinkFiber i else .ok s
      .ok { s with
        fibers := Function.update s.fibers i { s.fibers i with state := .done, sign := [0, 0, 0, 0] }
        focus := if s.focus = s.words i then 0 else s.focus } : Run Tasks) = .ok s') :
    ∃ ring', HostRing s' out ring' := by
  by_cases hi : i = GUEST_EXECUTIVE
  · rw [if_neg (not_not.mpr hi)] at hexec
    obtain rfl := Except.ok.inj hexec
    refine ⟨ring, ended h.toSigned (by rw [hi]; decide) h.root h.rootParent h.isRing
      (fun u => ?_) (fun u hu => ?_) _⟩
    · rw [h.mem]
      refine and_congr_left fun _ => ⟨fun hu => ⟨hu, ?_⟩, And.left⟩
      exact hi ▸ hu.2
    · obtain ⟨hu, hnroot, hoff⟩ := h.out u hu
      exact ⟨⟨hu, hi ▸ hu.2⟩, hnroot, hoff⟩
  · rw [if_pos hi] at hexec
    cases hunlink : s.unlinkFiber i with
    | error e =>
      rw [hunlink] at hexec
      exact absurd hexec nofun
    | ok t =>
      rw [hunlink] at hexec
      obtain rfl := Except.ok.inj hexec
      obtain ⟨hparent, hback, -, nextSibling, lastSibling, rfl⟩ := unlinkFiber_ok hunlink
      have hi0 : i ≠ 0 := by
        rintro rfl
        rw [h.rootParent, h.not_taskValidate_zero] at hparent
        exact absurd hparent Bool.false_ne_true
      have htask : s.IsRingTask (s.words i) := h.isRingTask_iff.mpr ⟨i, hi, rfl, hlive⟩
      have hin : s.words i ∈ ring := (h.mem _).mpr
        ⟨htask, fun hout => (h.out _ hout).2.2 hback⟩
      obtain ⟨herased, hoffs⟩ := h.unlinked hi0 hin
      have hsigned : Signed { s with
          links := (s.links.remove (s.words i)).single (s.words i), nextSibling, lastSibling } :=
        ⟨h.words_inj, h.words_ne, h.signed⟩
      refine ⟨ring.erase (s.words i), ended hsigned hi0 h.root h.rootParent herased
        (fun u => ?_) (fun u hu => ?_) _⟩
      · have hmem : u ∈ ring.erase (s.words i) ↔
            (s.IsRingTask u ∧ u ≠ s.words i) ∧ u ∉ out := by
          rw [h.isRing.nodup.mem_erase_iff, h.mem]
          tauto
        exact hmem
      · obtain ⟨hu', hnroot, -⟩ := h.out u hu
        exact ⟨⟨hu', fun heq => h.not_mem_ring hu (heq ▸ hin)⟩, hnroot, hoffs u hu⟩

theorem finish (h : HostRing s out ring) (hexec : s.finishGuest i = .ok s') :
    ∃ ring', HostRing s' out ring' := by
  unfold finishGuest at hexec
  split at hexec
  · obtain rfl := Except.ok.inj hexec
    exact ⟨ring, h⟩
  split at hexec
  · exact absurd hexec nofun
  next hlive _ =>
    rw [ne_eq, not_not] at hlive
    cases hpopup : s.popupParent i with
    | none =>
      rw [hpopup] at hexec
      exact h.finish_rest hlive hexec
    | some parent =>
      rw [hpopup] at hexec
      refine (h.clearPopup parent).finish_rest (i := i) ?_ hexec
      by_cases hip : i = parent
      · subst hip
        simpa using hlive
      · simpa [Function.update_of_ne hip] using hlive

/-! ### A run -/

/-- One call. -/
theorem exec (h : HostRing s out ring) {c : TaskCall} (hallowed : s.Allowed out c)
    (hexec : s.exec c = .ok s') : ∃ ring', HostRing s' (s.outAfter out c) ring' := by
  cases c with
  | raise task root => exact h.raise hallowed.1 hallowed.2 hexec
  | ins task pred => exact h.ins hallowed.1 hallowed.2.1 hallowed.2.2 hexec
  | remove task => exact h.remove hallowed.1 hallowed.2 hexec
  | executive =>
    obtain rfl := Except.ok.inj hexec
    exact ⟨ring, h.executive⟩
  | spawn parent kind codeLives stackSize =>
    have hexec' : (s.newGuestFiber parent kind codeLives stackSize).map Prod.snd = .ok s' := hexec
    cases hspawn : s.newGuestFiber parent kind codeLives stackSize with
    | error e =>
      rw [hspawn] at hexec'
      exact absurd hexec' nofun
    | ok p =>
      rw [hspawn] at hexec'
      obtain rfl := Except.ok.inj hexec'
      exact h.spawn hspawn
  | finish i => exact h.finish hexec

/-- **In every run the live tasks that are not taken out are linked to one ring.** -/
theorem run (h : HostRing s out ring) (hrun : TaskRun s out s' out') :
    ∃ ring', HostRing s' out' ring' := by
  induction hrun with
  | nil => exact ⟨ring, h⟩
  | step _ hallowed hexec ih =>
    obtain ⟨ring', h'⟩ := ih
    exact h'.exec hallowed hexec

/-! ### The checks of the host -/

theorem focusWalk (h : HostRing s out ring) (start hops : ℕ) {t : ℕ} (ht : t ∈ ring)
    (focus : ℕ) :
    ∃ focus', { s with focus }.focusWalk start hops t = .ok { s with focus := focus' } := by
  induction hops generalizing t with
  | zero => exact ⟨focus, rfl⟩
  | succ hops ih =>
    obtain ⟨hvalid, hne⟩ := ((h.mem t).mp ht).1
    have hvalid' : { s with focus }.taskValidate t = true := hvalid
    unfold Tasks.focusWalk
    rw [if_neg (by simp [hvalid', hne])]
    by_cases hinhibit : s.winInhibit t &&& 1 = 0
    · exact ⟨t, by rw [if_pos hinhibit]⟩
    · rw [if_neg hinhibit]
      by_cases hend : t = start
      · exact ⟨focus, if_pos hend⟩
      · rw [if_neg hend]
        exact ih (h.isRing.mutual ht).2.1

end HostRing

/-! ## The calls of the guest on a ring -/

namespace Tasks

open TaskLinks

variable {s s' s'' : Tasks} {ring : List ℕ} {task pred root : ℕ}

end Tasks

end ZealBringup.Bridge
