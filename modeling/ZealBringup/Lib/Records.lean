import Mathlib.Data.List.Basic
import Mathlib.Data.List.Flatten
import Mathlib.Data.List.Induction
import Mathlib.Data.List.Nodup
import Mathlib.Data.Nat.Notation

/-!
# Records that say their own length

A string of bytes may be a chain of records, each of which has its length in its first byte
and something that tells its kind in the second one.  The records of a chain come in sections
where some of them are headings.

* `IsRecord`, `IsChain` — a record, and a string that is a chain of them.
* `isChain_append` — a record in front of a chain; `IsChain.front` — and no other way.
* `IsChain.unique` — a string is a chain in one way at most.
* `cut` — the records before the first heading, and the sections.
* `foldlM_cut` — a run over the records is one over the sections.
* `length_filter_le_iff`, `nodup_filter_map_iff` — how many records of a kind there are, and
  whether they differ, seen from each of them.
-/

namespace Records

/-! ## Chains -/

section Chains

variable {r s bytes : List UInt8} {rs : List (List UInt8)}

/-- The byte of a record at some place, zero behind its end. -/
def byte (r : List UInt8) (k : ℕ) : ℕ := (r.getD k 0).toNat

/-- The string has the length that it says. -/
structure IsRecord (r : List UInt8) : Prop where
  two_le : 2 ≤ r.length
  length : byte r 0 = r.length

/-- The string is the records one after the other. -/
structure IsChain (bytes : List UInt8) (rs : List (List UInt8)) : Prop where
  flatten : rs.flatten = bytes
  record : ∀ r ∈ rs, IsRecord r

theorem byte_append_left {k : ℕ} (h : k < r.length) (s : List UInt8) :
    byte (r ++ s) k = byte r k := by
  rw [byte, byte, List.getD_eq_getElem?_getD, List.getD_eq_getElem?_getD,
    List.getElem?_append_left h]

theorem byte_take {k n : ℕ} (h : k < n) (bytes : List UInt8) :
    byte (bytes.take n) k = byte bytes k := by
  rw [byte, byte, List.getD_eq_getElem?_getD, List.getD_eq_getElem?_getD, List.getElem?_take_of_lt h]

theorem IsRecord.pos (h : IsRecord r) : 0 < r.length := by
  have h2 := h.two_le
  omega

/-- The front of a string is a record when its first byte is a length that fits. -/
theorem isRecord_take (h2 : 2 ≤ byte bytes 0) (hn : byte bytes 0 ≤ bytes.length) :
    IsRecord (bytes.take (byte bytes 0)) where
  two_le := by
    rw [List.length_take]
    omega
  length := by
    rw [byte_take (by omega), List.length_take, Nat.min_eq_left hn]

theorem isChain_nil : IsChain [] [] where
  flatten := rfl
  record r hr := by cases hr

theorem isChain_append (hr : IsRecord r) (h : IsChain s rs) : IsChain (r ++ s) (r :: rs) where
  flatten := by rw [List.flatten_cons, h.flatten]
  record x hx := by
    rcases List.mem_cons.mp hx with rfl | hx
    · exact hr
    · exact h.record x hx

/-- **A chain begins with the record that its first byte says.** -/
theorem IsChain.front (h : IsChain bytes rs) (hne : bytes ≠ []) :
    ∃ r s rs', bytes = r ++ s ∧ rs = r :: rs' ∧ IsRecord r ∧ IsChain s rs' := by
  cases rs with
  | nil => exact absurd h.flatten.symm hne
  | cons r rs' =>
    refine ⟨r, rs'.flatten, rs', ?_, rfl, h.record r List.mem_cons_self, rfl, fun x hx => ?_⟩
    · rw [← h.flatten, List.flatten_cons]
    · exact h.record x (List.mem_cons_of_mem _ hx)

/-- The rest of a chain. -/
theorem IsChain.rest (hr : IsRecord r) (h : IsChain (r ++ s) rs) :
    ∃ rs', rs = r :: rs' ∧ IsChain s rs' := by
  have hpos := hr.pos
  have hne : r ++ s ≠ [] := fun hnil => by
    rw [(List.append_eq_nil_iff.mp hnil).1] at hpos
    exact absurd hpos (Nat.lt_irrefl 0)
  obtain ⟨r', s', rs', heq, hrs, hr', hs'⟩ := h.front hne
  -- Both records have the length that the first byte says.
  have hlen : r.length = r'.length := by
    rw [← hr.length, ← hr'.length, ← byte_append_left hr.pos s, ← byte_append_left hr'.pos s', heq]
  obtain ⟨rfl, rfl⟩ := List.append_inj heq hlen
  exact ⟨rs', hrs, hs'⟩

/-- **A string is a chain in one way at most.** -/
theorem IsChain.unique {rs' : List (List UInt8)} (h : IsChain bytes rs) (h' : IsChain bytes rs') :
    rs = rs' := by
  induction rs generalizing bytes rs' with
  | nil =>
    cases rs' with
    | nil => rfl
    | cons r rs' =>
      have hpos := (h'.record r List.mem_cons_self).pos
      have hnil : r ++ rs'.flatten = [] := h'.flatten.trans h.flatten.symm
      rw [(List.append_eq_nil_iff.mp hnil).1] at hpos
      exact absurd hpos (Nat.lt_irrefl 0)
  | cons r rs ih =>
    have hr := h.record r List.mem_cons_self
    rw [← h.flatten, List.flatten_cons] at h'
    obtain ⟨rs'', rfl, hrest⟩ := IsChain.rest hr h'
    rw [ih ⟨rfl, fun x hx => h.record x (List.mem_cons_of_mem _ hx)⟩ hrest]

end Chains

/-! ## Sections -/

section Sections

variable {α σ : Type*} {ε : Type} (heading : α → Bool)

/-- What stands before the first heading, and each heading with what stands under it. -/
def cut : List α → List α × List (α × List α)
  | [] => ([], [])
  | a :: l =>
    if heading a then ([], (a, (cut l).1) :: (cut l).2) else (a :: (cut l).1, (cut l).2)

variable {heading}

variable {l : List α}

theorem cut_lead : ∀ a ∈ (cut heading l).1, heading a = false := by
  induction l with
  | nil => intro a ha; cases ha
  | cons b l ih =>
    intro a ha
    rw [cut] at ha
    split at ha
    · cases ha
    · rename_i hb
      rcases List.mem_cons.mp ha with rfl | ha
      · simpa using hb
      · exact ih a ha

theorem cut_heading : ∀ g ∈ (cut heading l).2, heading g.1 = true := by
  induction l with
  | nil => intro g hg; cases hg
  | cons b l ih =>
    intro g hg
    rw [cut] at hg
    split at hg
    · rename_i hb
      rcases List.mem_cons.mp hg with rfl | hg
      · exact hb
      · exact ih g hg
    · exact ih g hg

theorem cut_members :
    ∀ g ∈ (cut heading l).2, ∀ a ∈ g.2, heading a = false := by
  induction l with
  | nil => intro g hg; cases hg
  | cons b l ih =>
    intro g hg
    rw [cut] at hg
    split at hg
    · rcases List.mem_cons.mp hg with rfl | hg
      · exact cut_lead
      · exact ih g hg
    · exact ih g hg

/-- Cutting loses nothing and adds nothing. -/
theorem mem_cut {a : α} :
    a ∈ l ↔ a ∈ (cut heading l).1 ∨ ∃ g ∈ (cut heading l).2, a = g.1 ∨ a ∈ g.2 := by
  induction l with
  | nil => simp [cut]
  | cons b l ih =>
    rw [List.mem_cons, ih, cut]
    split
    · simp only [List.not_mem_nil, false_or, List.mem_cons, exists_eq_or_imp, or_assoc]
    · simp only [List.mem_cons, or_assoc]

/-- **A run over a list is a run over its lead and then over its sections.** -/
theorem foldlM_cut (heading : α → Bool) (f : σ → α → Except ε σ) (l : List α) (s : σ) :
    l.foldlM f s = (cut heading l).1.foldlM f s >>= fun s =>
      (cut heading l).2.foldlM (fun s g => f s g.1 >>= fun s => g.2.foldlM f s) s := by
  induction l generalizing s with
  | nil => rfl
  | cons b l ih =>
    rw [List.foldlM_cons, cut]
    split
    · rw [List.foldlM_nil, pure_bind, List.foldlM_cons, bind_assoc]
      exact bind_congr fun s => ih s
    · rw [List.foldlM_cons, bind_assoc]
      exact bind_congr fun s => ih s

/-- A filtered list is short when each of its elements has few before it. -/
theorem length_filter_le_iff {p : α → Bool} {n : ℕ} :
    (l.filter p).length ≤ n ↔ ∀ u a w, l = u ++ a :: w → p a → (u.filter p).length < n := by
  constructor
  · rintro hle u a w rfl ha
    rw [List.filter_append, List.filter_cons_of_pos ha, List.length_append,
      List.length_cons] at hle
    omega
  · intro h
    induction l using List.reverseRecOn with
    | nil => exact Nat.zero_le _
    | append_singleton l a ih =>
      rw [List.filter_append, List.length_append]
      have hprev := ih fun u b w heq hb => h u b (w ++ [a]) (by rw [heq]; simp) hb
      by_cases ha : p a
      · have hlast := h l a [] rfl ha
        rw [List.filter_cons_of_pos ha]
        exact hlast
      · rw [List.filter_cons_of_neg ha]
        exact hprev

/-- Elements of a kind have different values when each differs from those before it. -/
theorem nodup_filter_map_iff {β : Type*} {p : α → Bool} {f : α → β} :
    ((l.filter p).map f).Nodup ↔
      ∀ u a w, l = u ++ a :: w → p a → ∀ b ∈ u, p b → f b ≠ f a := by
  constructor
  · rintro h u a w rfl ha b hb hp heq
    rw [List.filter_append, List.filter_cons_of_pos ha, List.map_append, List.map_cons] at h
    refine (List.nodup_append.mp h).2.2 (f b) ?_ (f a) List.mem_cons_self heq
    exact List.mem_map_of_mem (List.mem_filter.mpr ⟨hb, hp⟩)
  · intro h
    induction l using List.reverseRecOn with
    | nil => exact List.nodup_nil
    | append_singleton l a ih =>
      have hprev := ih fun u b w heq hb => h u b (w ++ [a]) (by rw [heq]; simp) hb
      rw [List.filter_append, List.map_append]
      by_cases ha : p a
      · rw [List.filter_cons_of_pos ha, List.filter_nil, List.map_singleton]
        refine List.nodup_append.mpr ⟨hprev, List.nodup_singleton _, fun x hx y hy => ?_⟩
        obtain ⟨b, hb, rfl⟩ := List.mem_map.mp hx
        obtain ⟨hmem, hp⟩ := List.mem_filter.mp hb
        rw [List.mem_singleton.mp hy]
        exact h l a [] rfl ha b hmem hp
      · rw [List.filter_cons_of_neg ha, List.filter_nil, List.map_nil, List.append_nil]
        exact hprev

end Sections

end Records
