import Mathlib

/-!
# Doubly linked lists and rings

Nodes are numbers, `0` is no node, and two functions say which node comes before and after each.
`Seg` says that they link a list of nodes in both directions; a node is taken out or put in by
writing the links of its neighbours.

The nodes of a ring are linked in both directions, and the last with the first.  A ring has no first
node of its own: its list may begin anywhere.

* `seg_append` — a list in two parts.
* `Seg.reseam` — what stands between two pieces.
* `Seg.remove`, `Seg.insert` — one node less, one node more.
* `IsRing.rotate` — the list of a ring begins elsewhere.
* `IsRing.mutual` — the links of a node lead to nodes that lead back.
* `IsRing.insertBefore`, `IsRing.erase` — a node put in before another, a node taken out.
-/

namespace Links

/-- The nodes are linked in both directions, from `p` before them to `e` behind them. -/
def Seg (P N : ℕ → ℕ) : ℕ → List ℕ → ℕ → Prop
  | _, [], _ => True
  | p, x :: l, e => P x = p ∧ N x = l.headD e ∧ Seg P N x l e

/-- A link is written, if there is a node to write it to. -/
def link (f : ℕ → ℕ) (a v : ℕ) : ℕ → ℕ := if a = 0 then f else Function.update f a v

variable {P N P' N' : ℕ → ℕ} {p e x : ℕ} {l A B : List ℕ}

theorem link_of_ne {f : ℕ → ℕ} {a v b : ℕ} (h : b ≠ a) : link f a v b = f b := by
  rw [link]
  split
  · rfl
  · exact Function.update_of_ne h _ _

theorem link_self {f : ℕ → ℕ} {a v : ℕ} (h : a ≠ 0) : link f a v a = v := by
  rw [link, if_neg h, Function.update_self]

theorem link_apply (f : ℕ → ℕ) (a v b : ℕ) : link f a v b = if a ≠ 0 ∧ b = a then v else f b := by
  by_cases ha : a = 0
  · rw [link, if_pos ha, if_neg fun h => h.1 ha]
  · rw [link, if_neg ha, Function.update_apply]
    exact if_congr (and_iff_right ha).symm rfl rfl

/-- Only the links of the nodes matter. -/
theorem Seg.congr (h : Seg P N p l e) (hP : ∀ y ∈ l, P' y = P y) (hN : ∀ y ∈ l, N' y = N y) :
    Seg P' N' p l e := by
  induction l generalizing p with
  | nil => trivial
  | cons y l ih =>
    obtain ⟨h1, h2, h3⟩ := h
    refine ⟨?_, ?_, ih h3 (fun z hz => hP z (List.mem_cons_of_mem _ hz))
      fun z hz => hN z (List.mem_cons_of_mem _ hz)⟩
    · rw [hP y List.mem_cons_self, h1]
    · rw [hN y List.mem_cons_self, h2]

theorem seg_append : Seg P N p (A ++ B) e ↔ Seg P N p A (B.headD e) ∧ Seg P N (A.getLastD p) B e := by
  induction A generalizing p with
  | nil => exact (and_iff_right trivial).symm
  | cons y A ih =>
    have hhead : (A ++ B).headD e = A.headD (B.headD e) := by
      cases A with
      | nil => rfl
      | cons z A => rfl
    rw [List.cons_append, Seg, Seg, ih, hhead, List.getLastD_cons, and_assoc, and_assoc]

theorem getLastD_mem (x : ℕ) (l : List ℕ) : (x :: l).getLastD 0 ∈ x :: l := by
  rw [List.getLastD_cons]
  exact List.getLastD_mem_cons

/-- Another node comes behind. -/
theorem Seg.setEnd (h : Seg P N p l e) (h0 : 0 ∉ l) (hl : l.Nodup) (e' : ℕ) :
    Seg P (link N (l.getLastD 0) e') p l e' := by
  induction l generalizing p with
  | nil => trivial
  | cons x l ih =>
    obtain ⟨h1, h2, h3⟩ := h
    rw [List.nodup_cons] at hl
    cases l with
    | nil =>
      refine ⟨h1, ?_, trivial⟩
      exact link_self fun hx => h0 (hx ▸ List.mem_cons_self)
    | cons y l =>
      have hlast : (x :: y :: l).getLastD 0 = (y :: l).getLastD 0 := rfl
      rw [hlast]
      refine ⟨h1, ?_, ih h3 (fun hmem => h0 (List.mem_cons_of_mem _ hmem)) hl.2⟩
      rw [link_of_ne, h2]
      · rfl
      · rintro rfl
        exact hl.1 (getLastD_mem y l)

/-- Another node comes before. -/
theorem Seg.setStart (h : Seg P N p l e) (h0 : 0 ∉ l) (hl : l.Nodup) (p' : ℕ) :
    Seg (link P (l.headD 0) p') N p' l e := by
  cases l with
  | nil => trivial
  | cons x l =>
    obtain ⟨-, h2, h3⟩ := h
    rw [List.nodup_cons] at hl
    refine ⟨link_self fun hx => h0 (hx ▸ List.mem_cons_self), h2, ?_⟩
    refine h3.congr (fun y hy => link_of_ne ?_) fun y _ => rfl
    rintro rfl
    exact hl.1 hy

theorem headD_eq (l : List ℕ) : l.headD 0 = 0 ∨ l.headD 0 ∈ l := by
  cases l with
  | nil => exact Or.inl rfl
  | cons x l => exact Or.inr List.mem_cons_self

theorem getLastD_eq (l : List ℕ) : l.getLastD 0 = 0 ∨ l.getLastD 0 ∈ l := by
  cases l with
  | nil => exact Or.inl rfl
  | cons x l => exact Or.inr (getLastD_mem x l)

/-- **The two ends at a gap.**  What stands between two pieces is changed by one link of each. -/
theorem Seg.reseam (hA : Seg P N 0 A e) (hB : Seg P N p B 0) (h0 : 0 ∉ A ++ B)
    (hnd : (A ++ B).Nodup) (p' e' : ℕ) :
    Seg (link P (B.headD 0) p') (link N (A.getLastD 0) e') 0 A e' ∧
      Seg (link P (B.headD 0) p') (link N (A.getLastD 0) e') p' B 0 := by
  rw [List.mem_append, not_or] at h0
  obtain ⟨hndA, hndB, happart⟩ := List.nodup_append.mp hnd
  constructor
  · refine (hA.setEnd h0.1 hndA e').congr (fun y hy => link_of_ne ?_) fun y _ => rfl
    rintro rfl
    rcases headD_eq B with h | h
    · exact h0.1 (h ▸ hy)
    · exact happart _ hy _ h rfl
  · refine (hB.setStart h0.2 hndB p').congr (fun y _ => rfl) fun y hy => link_of_ne ?_
    rintro rfl
    rcases getLastD_eq A with h | h
    · exact h0.2 (h ▸ hy)
    · exact happart _ h _ hy rfl

/-- **One node less.** -/
theorem Seg.remove (h : Seg P N 0 (A ++ x :: B) 0) (h0 : 0 ∉ A ++ B) (hnd : (A ++ B).Nodup) :
    Seg (link P (B.headD 0) (A.getLastD 0)) (link N (A.getLastD 0) (B.headD 0)) 0 (A ++ B) 0 := by
  obtain ⟨hA, -, -, hB⟩ := seg_append.mp h
  exact seg_append.mpr (hA.reseam hB h0 hnd _ _)

/-- **One node more.** -/
theorem Seg.insert (hA : Seg P N 0 A e) (hB : Seg P N p B 0) (h0 : 0 ∉ A ++ B)
    (hnd : (A ++ B).Nodup) (hx : x ∉ A ++ B) (hx0 : x ≠ 0) :
    Seg (link (Function.update P x (A.getLastD 0)) (B.headD 0) x)
      (link (Function.update N x (B.headD 0)) (A.getLastD 0) x) 0 (A ++ x :: B) 0 := by
  have hupd : ∀ {f : ℕ → ℕ} {v : ℕ}, ∀ y ∈ A ++ B, Function.update f x v y = f y := by
    intro f v y hy
    refine Function.update_of_ne ?_ _ _
    rintro rfl
    exact hx hy
  have hA' := hA.congr (fun y hy => hupd (v := A.getLastD 0) y (List.mem_append_left _ hy))
    fun y hy => hupd (v := B.headD 0) y (List.mem_append_left _ hy)
  have hB' := hB.congr (fun y hy => hupd (v := A.getLastD 0) y (List.mem_append_right _ hy))
    fun y hy => hupd (v := B.headD 0) y (List.mem_append_right _ hy)
  obtain ⟨h1, h2⟩ := hA'.reseam hB' h0 hnd x x
  refine seg_append.mpr ⟨h1, ?_, ?_, h2⟩
  · rw [link_of_ne, Function.update_self]
    rintro rfl
    rcases headD_eq B with h | h
    · exact hx0 h
    · exact hx (List.mem_append_right _ h)
  · rw [link_of_ne, Function.update_self]
    rintro rfl
    rcases getLastD_eq A with h | h
    · exact hx0 h
    · exact hx (List.mem_append_left _ h)

/-! ## Rings -/

/-- The nodes are linked in both directions, the last with the first. -/
structure IsRing (P N : ℕ → ℕ) (l : List ℕ) : Prop where
  ne_nil : l ≠ []
  nodup : l.Nodup
  zero : 0 ∉ l
  seg : Seg P N (l.getLastD 0) l (l.headD 0)

/-- A node put in before another one. -/
def insertBefore (p x : ℕ) : List ℕ → List ℕ
  | [] => []
  | a :: l => if a = p then x :: a :: l else a :: insertBefore p x l

theorem insertBefore_append (hA : p ∉ A) : insertBefore p x (A ++ p :: B) = A ++ x :: p :: B := by
  induction A with
  | nil => simp [insertBefore]
  | cons a A ih =>
    rw [List.mem_cons, not_or] at hA
    rw [List.cons_append, insertBefore, if_neg (Ne.symm hA.1), ih hA.2, List.cons_append]

/-- The new node comes on top of the others. -/
theorem insertBefore_perm (hp : p ∈ l) : (insertBefore p x l).Perm (x :: l) := by
  induction l with
  | nil => exact absurd hp List.not_mem_nil
  | cons a l ih =>
    rw [insertBefore]
    by_cases ha : a = p
    · rw [if_pos ha]
    · rw [if_neg ha]
      have hl : p ∈ l := (List.mem_cons.mp hp).resolve_left (Ne.symm ha)
      exact ((ih hl).cons a).trans (List.Perm.swap x a l)

/-- Where a member of a list without repetitions stands. -/
theorem split_of_mem (hl : l.Nodup) (hx : x ∈ l) : ∃ A B, l = A ++ x :: B ∧ x ∉ A ∧ x ∉ B := by
  obtain ⟨A, B, rfl⟩ := List.append_of_mem hx
  rw [List.nodup_append] at hl
  obtain ⟨-, hB, hapart⟩ := hl
  refine ⟨A, B, rfl, fun hA => hapart x hA x List.mem_cons_self rfl, ?_⟩
  exact (List.nodup_cons.mp hB).1

/-! ## The ends of a piece -/

theorem Seg.prev_head (h : Seg P N p (x :: l) e) : P x = p := h.1

theorem Seg.next_last (h : Seg P N p l e) (hl : l ≠ []) : N (l.getLastD 0) = e := by
  induction l generalizing p with
  | nil => exact absurd rfl hl
  | cons x l ih =>
    obtain ⟨-, h2, h3⟩ := h
    cases l with
    | nil => exact h2
    | cons y l => exact ih h3 (List.cons_ne_nil y l)

theorem headD_of_ne_nil (hl : l ≠ []) (d : ℕ) : l.headD d = l.headD 0 := by
  cases l with
  | nil => exact absurd rfl hl
  | cons x l => rfl

theorem getLastD_of_ne_nil (hl : l ≠ []) (d : ℕ) : l.getLastD d = l.getLastD 0 := by
  cases l with
  | nil => exact absurd rfl hl
  | cons x l => rfl

theorem getLastD_append (hB : B ≠ []) (d : ℕ) : (A ++ B).getLastD d = B.getLastD 0 := by
  have hAB : A ++ B ≠ [] := List.append_ne_nil_of_right_ne_nil A hB
  rw [getLastD_of_ne_nil hAB, List.getLastD_eq_getLast?, List.getLastD_eq_getLast?,
    List.getLast?_append_of_ne_nil A hB]

theorem headD_append (hA : A ≠ []) (d : ℕ) : (A ++ B).headD d = A.headD 0 := by
  cases A with
  | nil => exact absurd rfl hA
  | cons x A => rfl

theorem headD_mem (hl : l ≠ []) : l.headD 0 ∈ l := by
  cases l with
  | nil => exact absurd rfl hl
  | cons x l => exact List.mem_cons_self

theorem getLastD_mem' (hl : l ≠ []) : l.getLastD 0 ∈ l := by
  cases l with
  | nil => exact absurd rfl hl
  | cons x l => exact getLastD_mem x l

/-! ## Rings -/

/-- Only the links of the members matter. -/
theorem IsRing.congr (h : IsRing P N l) (hP : ∀ y ∈ l, P' y = P y) (hN : ∀ y ∈ l, N' y = N y) :
    IsRing P' N' l := ⟨h.ne_nil, h.nodup, h.zero, h.seg.congr hP hN⟩

/-- **The list of a ring begins anywhere.** -/
theorem IsRing.rotate (h : IsRing P N (A ++ B)) : IsRing P N (B ++ A) := by
  by_cases hA : A = []
  · simpa [hA] using h
  by_cases hB : B = []
  · simpa [hB] using h
  obtain ⟨-, hnd, h0, hseg⟩ := h
  rw [getLastD_append hB, headD_append hA, seg_append, headD_of_ne_nil hB,
    getLastD_of_ne_nil hA] at hseg
  refine ⟨List.append_ne_nil_of_left_ne_nil hB A, ?_, ?_, ?_⟩
  · exact List.perm_append_comm.nodup_iff.mp hnd
  · rw [List.mem_append] at h0 ⊢
    exact fun hmem => h0 hmem.symm
  · rw [getLastD_append hA, headD_append hB, seg_append, headD_of_ne_nil hA,
      getLastD_of_ne_nil hB]
    exact ⟨hseg.2, hseg.1⟩

/-- The links of the first member. -/
theorem IsRing.head (h : IsRing P N (x :: l)) : P x = l.getLastD x ∧ N x = l.headD x := by
  obtain ⟨-, -, -, h1, h2, -⟩ := h
  rw [List.getLastD_cons] at h1
  exact ⟨h1, h2⟩

/-- **The links of a member lead to members that lead back.** -/
theorem IsRing.mutual (h : IsRing P N l) (hx : x ∈ l) :
    P x ∈ l ∧ N x ∈ l ∧ N (P x) = x ∧ P (N x) = x := by
  obtain ⟨A, B, rfl, -, -⟩ := split_of_mem h.nodup hx
  have hrot : IsRing P N (x :: (B ++ A)) := h.rotate
  obtain ⟨hP, hN⟩ := hrot.head
  obtain ⟨-, -, -, -, -, hseg⟩ := hrot
  have hmem : ∀ y ∈ B ++ A, y ∈ A ++ x :: B := fun y hy =>
    List.perm_append_comm.subset (List.mem_cons_of_mem x hy)
  by_cases hnil : B ++ A = []
  · rw [hnil] at hP hN
    have hPx : P x = x := hP
    have hNx : N x = x := hN
    exact ⟨hPx.symm ▸ hx, hNx.symm ▸ hx, by rw [hPx, hNx], by rw [hNx, hPx]⟩
  · rw [getLastD_of_ne_nil hnil] at hP
    rw [headD_of_ne_nil hnil] at hN
    refine ⟨?_, ?_, ?_, ?_⟩
    · rw [hP]
      exact hmem _ (getLastD_mem' hnil)
    · rw [hN]
      exact hmem _ (headD_mem hnil)
    · rw [hP]
      exact hseg.next_last hnil
    · rw [hN]
      obtain ⟨y, m, hym⟩ := List.exists_cons_of_ne_nil hnil
      rw [hym] at hseg ⊢
      exact hseg.prev_head

/-- A member that leads to itself is alone. -/
theorem IsRing.eq_singleton (h : IsRing P N l) (hx : x ∈ l) (hself : N x = x) : l = [x] := by
  obtain ⟨A, B, rfl, hA, hB⟩ := split_of_mem h.nodup hx
  have hrot : IsRing P N (x :: (B ++ A)) := h.rotate
  by_contra hne
  have hnil : B ++ A ≠ [] := by
    intro hnil
    rw [List.append_eq_nil_iff] at hnil
    apply hne
    rw [hnil.1, hnil.2, List.nil_append]
  have hN := hrot.head.2
  rw [hself, headD_of_ne_nil hnil] at hN
  have hmem := headD_mem hnil
  rw [← hN, List.mem_append] at hmem
  exact hmem.elim hB hA

/-- A node put in at the end of the list. -/
theorem IsRing.concat (h : IsRing P N l) (hx : x ∉ l) (hx0 : x ≠ 0) :
    IsRing (Function.update (Function.update P (l.headD 0) x) x (l.getLastD 0))
      (Function.update (Function.update N (l.getLastD 0) x) x (l.headD 0)) (l ++ [x]) := by
  obtain ⟨hne, hnd, h0, hseg⟩ := h
  have hhead : l.headD 0 ≠ 0 := fun hz => h0 (hz ▸ headD_mem hne)
  have hlast : l.getLastD 0 ≠ 0 := fun hz => h0 (hz ▸ getLastD_mem' hne)
  have hpiece := (hseg.setStart h0 hnd x).setEnd h0 hnd x
  refine ⟨by simp, ?_, ?_, ?_⟩
  · exact List.perm_append_comm.nodup_iff.mpr (List.nodup_cons.mpr ⟨hx, hnd⟩)
  · rw [List.mem_append, List.mem_singleton]
    exact fun hz => hz.elim h0 (Ne.symm hx0)
  · rw [getLastD_append (List.cons_ne_nil x []), headD_append hne, seg_append,
      getLastD_of_ne_nil hne]
    refine ⟨hpiece.congr (fun y hy => ?_) fun y hy => ?_, ?_, ?_, trivial⟩
    · rw [Function.update_of_ne (ne_of_mem_of_not_mem hy hx), link, if_neg hhead]
    · rw [Function.update_of_ne (ne_of_mem_of_not_mem hy hx), link, if_neg hlast]
    · rw [getLastD_of_ne_nil hne ([x].getLastD 0)]
      exact Function.update_self x _ _
    · exact Function.update_self x _ _

/-- The first node taken out. -/
theorem IsRing.tail (h : IsRing P N (x :: l)) (hl : l ≠ []) :
    IsRing (Function.update P (l.headD 0) (l.getLastD 0))
      (Function.update N (l.getLastD 0) (l.headD 0)) l := by
  obtain ⟨-, hnd, h0, -, -, hseg⟩ := h
  rw [List.mem_cons, not_or] at h0
  rw [List.nodup_cons] at hnd
  have hhead : l.headD 0 ≠ 0 := fun hz => h0.2 (hz ▸ headD_mem hl)
  have hlast : l.getLastD 0 ≠ 0 := fun hz => h0.2 (hz ▸ getLastD_mem' hl)
  have hpiece := (hseg.setStart h0.2 hnd.2 (l.getLastD 0)).setEnd h0.2 hnd.2 (l.headD 0)
  rw [link, if_neg hhead, link, if_neg hlast] at hpiece
  exact ⟨hl, hnd.2, h0.2, hpiece⟩

/-- **A node put in before a member.** -/
theorem IsRing.insertBefore (h : IsRing P N l) (hp : p ∈ l) (hx : x ∉ l) (hx0 : x ≠ 0) :
    IsRing (Function.update (Function.update P p x) x (P p))
      (Function.update (Function.update N (P p) x) x p) (insertBefore p x l) := by
  obtain ⟨A, B, rfl, hA, -⟩ := split_of_mem h.nodup hp
  have hrot : IsRing P N (p :: (B ++ A)) := h.rotate
  have hx' : x ∉ p :: (B ++ A) := fun hmem => hx (List.perm_append_comm.subset hmem)
  have hlast : (p :: (B ++ A)).getLastD 0 = P p := by
    rw [hrot.head.1, List.getLastD_cons]
  have hput := hrot.concat hx' hx0
  rw [hlast] at hput
  rw [insertBefore_append hA]
  have hsplit : p :: (B ++ A) ++ [x] = (p :: B) ++ (A ++ [x]) := by simp
  rw [hsplit] at hput
  have hback := hput.rotate
  rwa [List.append_assoc, List.singleton_append] at hback

/-- **A member taken out.** -/
theorem IsRing.erase (h : IsRing P N l) (hx : x ∈ l) (hne : l ≠ [x]) :
    IsRing (Function.update P (N x) (P x)) (Function.update N (P x) (N x)) (l.erase x) := by
  obtain ⟨A, B, rfl, hA, -⟩ := split_of_mem h.nodup hx
  have hrot : IsRing P N (x :: (B ++ A)) := h.rotate
  have hnil : B ++ A ≠ [] := by
    intro hnil
    rw [List.append_eq_nil_iff] at hnil
    apply hne
    rw [hnil.1, hnil.2, List.nil_append]
  obtain ⟨hP, hN⟩ := hrot.head
  rw [getLastD_of_ne_nil hnil] at hP
  rw [headD_of_ne_nil hnil] at hN
  rw [List.erase_append_right _ hA, List.erase_cons_head, hP, hN]
  exact (hrot.tail hnil).rotate

end Links
