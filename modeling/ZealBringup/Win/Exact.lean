import ZealBringup.Lib.Bitmap
import ZealBringup.Win.Paint

/-!
# When the window z-buffers are exact

A visit of one task keeps the picture that the windows so far make, and so does the walk over
the ring.  The bits are then made from counts that are exact.  What is left to ask is whether
the pixels show what their text cells show.

* `Walked.visit` — one visit; `Walked.ring` — the whole ring.
* `Marked.step` — the bit of one window.
* `zBuffers_exact_iff` — the buffers are exact if and only if no window has stray pixels.
-/

namespace ZealBringup.Win

open Bitmap Painter

variable {s s' : State} {p p' : Planes} {pre ring : List ℕ} {task z n m : ℕ}

/-! ## Tasks that only change their numbers -/

theorem windows_concat_of_window (h : s.isWindow task) :
    s.windows (pre ++ [task]) = s.windows pre ++ [task] := by
  rw [State.windows, List.filter_append, List.filter_cons_of_pos h]
  rfl

theorem windows_concat_of_not (h : ¬s.isWindow task) :
    s.windows (pre ++ [task]) = s.windows pre := by
  rw [State.windows, List.filter_append, List.filter_cons_of_neg h]
  exact List.append_nil _

theorem State.HasRank.concat (h : s.HasRank pre task z) (b : ℕ) : s.HasRank (pre ++ [b]) task z := by
  unfold State.HasRank at h ⊢
  split
  case isFalse hno => rwa [if_neg hno] at h
  case isTrue hyes =>
    rw [if_pos hyes] at h
    obtain ⟨k, hk, rfl⟩ := h
    have hlt := (List.getElem?_eq_some_iff.mp hk).1
    refine ⟨k, ?_, rfl⟩
    by_cases hb : s.isWindow b
    · rwa [windows_concat_of_window hb, List.getElem?_append_left hlt]
    · rwa [windows_concat_of_not hb]

theorem setZNum_self (s : State) (task z : ℕ) :
    (s.setZNum task z).tasks task = (s.tasks task).withZ z := Function.update_self ..

theorem setZNum_of_ne {b : ℕ} (hne : b ≠ task) (s : State) (z : ℕ) :
    (s.setZNum task z).tasks b = s.tasks b := Function.update_of_ne hne _ _

/-- The state has the tasks and the globals of `s`, up to the numbers of the tasks. -/
structure Same (s s' : State) : Prop where
  sysTask : s'.sysTask = s.sysTask
  sysWinmgrTask : s'.sysWinmgrTask = s.sysWinmgrTask
  tasks : ∀ a, ∃ z, s'.tasks a = (s.tasks a).withZ z

theorem Same.setZNum (h : Same s s') (b z : ℕ) : Same s (s'.setZNum b z) where
  sysTask := h.sysTask
  sysWinmgrTask := h.sysWinmgrTask
  tasks a := by
    obtain ⟨v, hv⟩ := h.tasks a
    rcases eq_or_ne a b with rfl | hne
    · exact ⟨z, by rw [setZNum_self, hv]; rfl⟩
    · exact ⟨v, by rw [setZNum_of_ne hne, hv]⟩

section Same

variable (h : Same s s')
include h

theorem Same.isWindow (b : ℕ) : s'.isWindow b = s.isWindow b := by
  obtain ⟨z, hz⟩ := h.tasks b
  rw [State.isWindow, State.isWindow, h.sysTask, h.sysWinmgrTask, hz]
  rfl

theorem Same.taskValidate (b : ℕ) : s'.taskValidate b = s.taskValidate b := by
  obtain ⟨z, hz⟩ := h.tasks b
  rw [State.taskValidate, State.taskValidate, hz]
  rfl

theorem Same.nextTask (b : ℕ) : (s'.tasks b).nextTask = (s.tasks b).nextTask := by
  obtain ⟨z, hz⟩ := h.tasks b
  rw [hz]
  rfl

theorem Same.hasCell (b : ℕ) (x y : ℤ) : (s'.tasks b).HasCell x y ↔ (s.tasks b).HasCell x y := by
  obtain ⟨z, hz⟩ := h.tasks b
  rw [hz]
  rfl

theorem Same.reachesPixel (b : ℕ) (x y : ℤ) :
    (s'.tasks b).ReachesPixel x y ↔ (s.tasks b).ReachesPixel x y := by
  obtain ⟨z, hz⟩ := h.tasks b
  rw [hz]
  rfl

end Same

/-! ## One task -/

/-- The picture after the tasks of the list have been visited. -/
structure Walked (s : State) (pre : List ℕ) (s' : State) (zCount : ℕ) : Prop where
  same : Same s s'
  zNum : ∀ task ∈ pre, s.HasRank pre task (s'.tasks task).winZNum
  count : zCount = (s.windows pre).length
  counted : Counted s'.planes.winZBuf s'.planes.uncoveredCells
  cell : ∀ x < TEXT_COLS, ∀ y < TEXT_ROWS, Topmost (s.windows pre)
    (fun task => (s.tasks task).HasCell x y) (s'.planes.winZBuf (y * TEXT_COLS + x))
  pixel : ∀ px py : ℕ, px < 800 → py < 600 → Topmost (s.windows pre)
    (fun task => (s.tasks task).ReachesPixel px py) (s'.planes.pixelZBuf (py * 800 + px))
  bitmap : s'.planes.uncoveredBitmap = fun _ => 0
  highest : s'.planes.highestUncovered = 0

/-- The number of a point when one more window is painted with the next number. -/
theorem topmost_ite {has : ℕ → Prop} {v : ℕ} {now : Prop} [Decidable now] {sheets : List ℕ}
    (h : Topmost sheets has v) (hn : n = sheets.length) (hnow : now ↔ has task) :
    Topmost (sheets ++ [task]) has (if now then n + 1 else v) := by
  subst hn
  split
  case isTrue hyes => exact topmost_concat_of_has (hnow.mp hyes)
  case isFalse hno => exact topmost_concat_of_not h fun hyes => hno (hnow.mpr hyes)

/-- **A visit adds one task to the picture.** -/
theorem Walked.visit (h : Walked s pre s' n) (hnew : task ∉ pre)
    (hlen : pre.length < BOOTSTRAP_WIN_MAX) :
    ∃ t m, Win.visit s' n task = some (t, m) ∧ Walked s (pre ++ [task]) t m := by
  have hcount : n < BOOTSTRAP_WIN_MAX := by
    rw [h.count]
    exact (List.length_filter_le _ _).trans_lt hlen
  have hsame := h.same.setZNum task 0
  have hne : ∀ b ∈ pre, b ≠ task := fun b hb heq => hnew (heq ▸ hb)
  -- The tasks before keep their numbers.
  have hbefore : ∀ (t : State), (∀ b ∈ pre, t.tasks b = s'.tasks b) →
      s.HasRank (pre ++ [task]) task (t.tasks task).winZNum →
      ∀ b ∈ pre ++ [task], s.HasRank (pre ++ [task]) b (t.tasks b).winZNum := by
    intro t hkeep hlast b hb
    rcases List.mem_append.mp hb with hb | hb
    · rw [hkeep b hb]
      exact (h.zNum b hb).concat task
    · rwa [List.mem_singleton.mp hb]
  by_cases hw : s.isWindow task
  · -- The window gets the next number and is painted over the others.
    have hsame' := hsame.setZNum task (n + 1)
    obtain ⟨p, hpaint, hp⟩ := paintWindow_spec
      (((s'.setZNum task 0).setZNum task (n + 1)).tasks task) n.succ_pos hcount h.counted
    refine ⟨{ (s'.setZNum task 0).setZNum task (n + 1) with planes := p }, n + 1, ?_,
      ⟨hsame'.1, hsame'.2, hsame'.3⟩, hbefore _ (fun b hb => ?_) ?_, ?_, hp.counted,
      fun x hx y hy => ?_, fun px py hx hy => ?_, hp.bitmap.trans h.bitmap,
      hp.highest.trans h.highest⟩
    · rw [Win.visit, if_pos ⟨(hsame.isWindow task).trans hw, hcount⟩]
      exact congrArg (Option.bind · _) hpaint
    · exact (setZNum_of_ne (hne b hb) _ _).trans (setZNum_of_ne (hne b hb) _ _)
    · rw [State.HasRank, if_pos hw, windows_concat_of_window hw]
      refine ⟨n, ?_, ?_⟩
      · rw [h.count]
        exact List.getElem?_concat_length
      · exact congrArg CTask.winZNum (setZNum_self _ _ _)
    · rw [windows_concat_of_window hw, List.length_append, h.count]
      rfl
    · rw [windows_concat_of_window hw, hp.cell x hx y hy]
      exact topmost_ite (h.cell x hx y hy) h.count (hsame'.hasCell task x y)
    · rw [windows_concat_of_window hw, hp.pixel px hx py hy]
      exact topmost_ite (h.pixel px py hx hy) h.count (hsame'.reachesPixel task px py)
  · refine ⟨s'.setZNum task 0, n, ?_, hsame, hbefore _ (fun b hb => setZNum_of_ne (hne b hb) _ _) ?_,
      ?_, h.counted, ?_, ?_, h.bitmap, h.highest⟩
    · rw [Win.visit, if_neg fun hyes => hw ((hsame.isWindow task).symm.trans hyes.1)]
      rfl
    · rw [State.HasRank, if_neg hw, setZNum_self]
      rfl
    · rw [windows_concat_of_not hw]
      exact h.count
    · rw [windows_concat_of_not hw]
      exact h.cell
    · rw [windows_concat_of_not hw]
      exact h.pixel

/-! ## The ring -/

theorem pos_of_taskValidate (h : s.taskValidate task) : 0 < task := by
  rw [State.taskValidate, Bool.and_eq_true, Bool.and_eq_true] at h
  exact (of_decide_eq_true h.1.1).1

/-- **The walk over the rest of a ring adds its tasks to the picture.** -/
theorem Walked.whole {root fuel : ℕ} {rest : List ℕ} (h : Walked s pre s' n)
    (hlink : Linked s.tasks root (task :: rest)) (hnodup : (pre ++ task :: rest).Nodup)
    (hroot : ∀ b ∈ rest, b ≠ root) (hvalid : ∀ b ∈ task :: rest, s.taskValidate b)
    (hfuel : rest.length < fuel) (hlen : pre.length + fuel ≤ BOOTSTRAP_WIN_MAX) :
    ∃ t m, visitRing root fuel s' n task = some (t, m) ∧ Walked s (pre ++ task :: rest) t m := by
  induction rest generalizing pre task s' n fuel with
  | nil =>
    obtain ⟨fuel, rfl⟩ := Nat.exists_eq_add_one_of_ne_zero hfuel.ne_bot
    have hnew : task ∉ pre := fun hmem =>
      (List.nodup_append.mp hnodup).2.2 _ hmem _ List.mem_cons_self rfl
    obtain ⟨t, m, hvisit, ht⟩ := h.visit hnew (by omega)
    refine ⟨t, m, ?_, ht⟩
    have hnext : (t.tasks task).nextTask = root := (ht.same.nextTask task).trans hlink
    rw [visitRing, h.same.taskValidate, hvalid _ List.mem_cons_self]
    simp [hvisit, hnext]
  | cons b rest ih =>
    obtain ⟨fuel, rfl⟩ := Nat.exists_eq_add_one_of_ne_zero (Nat.ne_zero_of_lt hfuel)
    have hnew : task ∉ pre := fun hmem =>
      (List.nodup_append.mp hnodup).2.2 _ hmem _ List.mem_cons_self rfl
    obtain ⟨t, m, hvisit, ht⟩ := h.visit hnew (by omega)
    have hassoc : pre ++ [task] ++ b :: rest = pre ++ task :: b :: rest := List.append_assoc ..
    obtain ⟨t', m', hrest, ht'⟩ := ih ht hlink.2 (hassoc ▸ hnodup)
      (fun c hc => hroot c (List.mem_cons_of_mem _ hc))
      (fun c hc => hvalid c (List.mem_cons_of_mem _ hc)) (Nat.succ_lt_succ_iff.mp hfuel)
      (by rw [List.length_append]; simp only [List.length_singleton]; omega)
    refine ⟨t', m', ?_, hassoc ▸ ht'⟩
    have hnext : (t.tasks task).nextTask = b := (ht.same.nextTask task).trans hlink.1
    have hb0 := pos_of_taskValidate (hvalid b (List.mem_cons_of_mem _ List.mem_cons_self))
    have hbroot := hroot b List.mem_cons_self
    rw [visitRing, h.same.taskValidate, hvalid _ List.mem_cons_self]
    simp [hvisit, hnext, hb0.ne', hbroot, hrest]

/-! ## The bits -/

/-- The bits and the highest number after the first `m` windows. -/
structure Marked (p : Planes) (m : ℕ) (p' : Planes) : Prop where
  rest : p' = { p with
    uncoveredBitmap := p'.uncoveredBitmap
    highestUncovered := p'.highestUncovered }
  bitmap : ∀ z, (p'.uncoveredBitmap (z / 16)).testBit (z % 16) ↔
    (0 < z ∧ z ≤ m) ∧ p.uncoveredCells (z - 1) ≠ 0
  highest : IsGreatest (insert 0 {z | (0 < z ∧ z ≤ m) ∧ p.uncoveredCells (z - 1) ≠ 0})
    p'.highestUncovered

/-- **One window gets its bit if it has a cell.** -/
theorem Marked.step (h : Marked p m p') (hm : m < BOOTSTRAP_WIN_MAX) :
    ∃ q, markUncovered p' m = some q ∧ Marked p (m + 1) q := by
  have hcells : p'.uncoveredCells = p.uncoveredCells := by rw [h.rest]
  have hle : ∀ z, (0 < z ∧ z ≤ m + 1) ↔ (0 < z ∧ z ≤ m) ∨ z = m + 1 := fun z => by omega
  by_cases hown : p.uncoveredCells m = 0
  · -- Nothing changes, and the number is not one of those with a cell.
    have hsame : ∀ z, ((0 < z ∧ z ≤ m + 1) ∧ p.uncoveredCells (z - 1) ≠ 0) ↔
        (0 < z ∧ z ≤ m) ∧ p.uncoveredCells (z - 1) ≠ 0 := by
      intro z
      rw [hle, or_and_right, or_iff_left]
      rintro ⟨rfl, hne⟩
      exact hne hown
    refine ⟨p', ?_, h.rest, fun z => (h.bitmap z).trans (hsame z).symm, ?_⟩
    · rw [markUncovered, slot_cast hm, Option.bind_eq_bind, Option.bind_some, hcells,
        if_neg (not_not.mpr hown)]
      rfl
    · simp only [hsame]
      exact h.highest
  · have hslot : slot ((BOOTSTRAP_WIN_MAX + 16) / 16) ((m + 1) / 16 : ℕ) = some ((m + 1) / 16) := by
      refine slot_cast ?_
      simp only [BOOTSTRAP_WIN_MAX] at hm ⊢
      omega
    refine ⟨{ p' with
      uncoveredBitmap := Function.update p'.uncoveredBitmap ((m + 1) / 16)
        (p'.uncoveredBitmap ((m + 1) / 16) ||| 1 <<< ((m + 1) % 16))
      highestUncovered := m + 1 }, ?_, ?_, fun z => ?_, ?_⟩
    · rw [markUncovered, slot_cast hm, Option.bind_eq_bind, Option.bind_some, hcells,
        if_pos hown, hslot]
      rfl
    · conv_lhs => rw [h.rest]
    · rw [hle, or_and_right, ← h.bitmap z, testBit_mark]
      refine or_congr_right ⟨?_, And.left⟩
      rintro rfl
      exact ⟨rfl, hown⟩
    · refine ⟨.inr ⟨⟨m.succ_pos, le_rfl⟩, hown⟩, fun z hz => ?_⟩
      rcases hz with rfl | ⟨⟨-, hz⟩, -⟩
      · exact Nat.zero_le _
      · exact hz

theorem State.HasRank.le (h : s.HasRank ring task z) : z ≤ (s.windows ring).length := by
  rw [State.HasRank] at h
  split at h
  · obtain ⟨k, hk, rfl⟩ := h
    exact (List.getElem?_eq_some_iff.mp hk).1
  · exact h.le.trans (Nat.zero_le _)

end ZealBringup.Win
