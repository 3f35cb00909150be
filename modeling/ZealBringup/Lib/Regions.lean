import Mathlib.Data.List.Perm.Basic
import Mathlib.Data.List.Pairwise
import Mathlib.Data.Nat.Notation
import Mathlib.Data.Set.Basic
import Mathlib.Tactic.Common

/-!
# Labelled regions of addresses

Lists of labelled regions, and what it means to take addresses out of those with one label.

* `Region`, `Apart`, `Within`, `Covered` — regions and lists of regions.
* `Carved` — a list that is another one with some addresses taken from its free regions.
* `Carved.split` — one free region in pieces.
* `Carved.kept`, `Carved.clear` — what a carved list says of each address.
-/

namespace Regions

variable {τ : Type*}

/-- The addresses from `base` on, `length` of them, under a label. -/
@[ext] structure Region (τ : Type*) where
  base : ℕ
  length : ℕ
  type : τ
deriving DecidableEq, Repr

namespace Region

/-- The first address behind a region. -/
def stop (r : Region τ) : ℕ := r.base + r.length

/-- An address of the region. -/
def Has (r : Region τ) (a : ℕ) : Prop := r.base ≤ a ∧ a < r.base + r.length

/-- One region ends before the other begins. -/
def Apart (r s : Region τ) : Prop := r.base + r.length ≤ s.base ∨ s.base + s.length ≤ r.base

/-- A part of a region. -/
def Within (r s : Region τ) : Prop :=
  s.base ≤ r.base ∧ r.base + r.length ≤ s.base + s.length

instance (r : Region τ) (a : ℕ) : Decidable (r.Has a) := inferInstanceAs (Decidable (_ ∧ _))

instance (r s : Region τ) : Decidable (r.Apart s) := inferInstanceAs (Decidable (_ ∨ _))

variable {r s t u : Region τ} {a : ℕ}

theorem Apart.symm (h : r.Apart s) : s.Apart r := Or.symm h

theorem Apart.not_has (h : r.Apart s) (hr : r.Has a) : ¬s.Has a := fun hs => by
  simp only [Apart, Has] at h hr hs
  omega

/-- Parts of regions that are apart. -/
theorem Apart.within (h : r.Apart s) (ht : t.Within r) (hu : u.Within s) : t.Apart u := by
  simp only [Apart, Within] at *
  omega

theorem Within.refl (r : Region τ) : r.Within r := ⟨le_rfl, le_rfl⟩

theorem Within.trans (h : r.Within s) (h' : s.Within t) : r.Within t :=
  ⟨h'.1.trans h.1, h.2.trans h'.2⟩

theorem Within.has (h : r.Within s) (hr : r.Has a) : s.Has a :=
  ⟨h.1.trans hr.1, lt_of_lt_of_le hr.2 h.2⟩

end Region

open Region

/-- Some region of a list has the address. -/
def Covered (rs : List (Region τ)) (a : ℕ) : Prop := ∃ r ∈ rs, r.Has a

variable {rs : List (Region τ)}

theorem covered_perm {rs' : List (Region τ)} (h : rs.Perm rs') (a : ℕ) :
    Covered rs a ↔ Covered rs' a := by
  simp only [Covered, h.mem_iff]

theorem pairwise_apart_perm {rs' : List (Region τ)} (h : rs.Perm rs') :
    rs.Pairwise Apart ↔ rs'.Pairwise Apart :=
  h.pairwise_iff fun h => h.symm

variable {s : Region τ} {a : ℕ}

/-- In a list of regions that are apart, an address determines its region. -/
theorem eq_of_has (h : rs.Pairwise Apart) {r : Region τ} (hr : r ∈ rs) (hs : s ∈ rs)
    (har : r.Has a) (has : s.Has a) : r = s := by
  by_contra hne
  have hsymm : Std.Symm (Region.Apart : Region τ → Region τ → Prop) := ⟨fun _ _ h => h.symm⟩
  exact (h.forall hr hs hne).not_has har has

/-- Some regions that make up one. -/
structure Tiles (pieces : List (Region τ)) (r : Region τ) : Prop where
  apart : pieces.Pairwise Apart
  within : ∀ p ∈ pieces, p.Within r
  covers : ∀ a, r.Has a → Covered pieces a

/-! ## Taking addresses -/

/-- A list `new` that is `old` with addresses taken from its `free` regions: it has the same
addresses, its regions are parts of those of `old`, and a part of a free region is either still
free, with no address taken, or taken as a whole. Nothing else is taken. -/
structure Carved (free : τ) (taken : Set ℕ) (old new : List (Region τ)) : Prop where
  apart : new.Pairwise Apart
  covered : ∀ a, Covered new a ↔ Covered old a
  part : ∀ s ∈ new, ∃ r ∈ old, s.Within r ∧
    (s.type = r.type ∧ (s.type = free → ∀ a, s.Has a → a ∉ taken) ∨
      r.type = free ∧ s.type ≠ free ∧ ∀ a, s.Has a → a ∈ taken)
  formerly : ∀ r ∈ old, ∀ a, r.Has a → a ∈ taken → r.type = free

variable {free : τ} {taken region : Set ℕ} {old mem new rest pieces : List (Region τ)} {r : Region τ}

/-- Nothing is taken. -/
theorem Carved.refl (h : old.Pairwise Apart) (hclear : ∀ r ∈ old, ∀ a, r.Has a → a ∉ taken) :
    Carved free taken old old where
  apart := h
  covered := fun _ => Iff.rfl
  part := fun s hs => ⟨s, hs, .refl s, .inl ⟨rfl, fun _ => hclear s hs⟩⟩
  formerly := fun r hr a ha hta => absurd hta (hclear r hr a ha)

theorem Carved.perm (h : Carved free taken old mem) (hperm : mem.Perm new) :
    Carved free taken old new where
  apart := (pairwise_apart_perm hperm).1 h.apart
  covered := fun a => (covered_perm hperm a).symm.trans (h.covered a)
  part := fun s hs => h.part s (hperm.mem_iff.2 hs)
  formerly := h.formerly

/-- **One free region in pieces.** Those with addresses of the new region are not free. -/
theorem Carved.split (h : Carved free taken old mem) (hold : old.Pairwise Apart) (hmem : mem.Perm (r :: rest))
    (hfree : r.type = free) (htiles : Tiles pieces r) (hregion : ∀ a ∈ region, r.Has a)
    (hpieces : ∀ p ∈ pieces, p.type = free ∧ (∀ a, p.Has a → a ∉ region) ∨
      p.type ≠ free ∧ ∀ a, p.Has a → a ∈ region) (hnew : new.Perm (pieces ++ rest)) :
    Carved free (taken ∪ region) old new := by
  have hcons := h.perm hmem
  obtain ⟨hr, hrest⟩ := List.pairwise_cons.1 hcons.apart
  obtain ⟨whole, hwhole, hwithin, hcase⟩ := hcons.part r (List.mem_cons_self ..)
  have htaken : r.type = whole.type ∧ ∀ a, r.Has a → a ∉ taken := by
    rcases hcase with ⟨htype, hclear⟩ | ⟨-, hne, -⟩
    · exact ⟨htype, hclear hfree⟩
    · exact absurd hfree hne
  refine Carved.perm (?_ : Carved free (taken ∪ region) old (pieces ++ rest)) hnew.symm
  refine ⟨?_, fun a => ?_, fun s hs => ?_, fun s hs a ha hta => ?_⟩
  · exact List.pairwise_append.2 ⟨htiles.apart, hrest, fun p hp s hs =>
      (hr s hs).within (htiles.within p hp) (.refl s)⟩
  · rw [← hcons.covered a]
    constructor
    · rintro ⟨s, hs, ha⟩
      rcases List.mem_append.1 hs with hs | hs
      · exact ⟨r, List.mem_cons_self .., (htiles.within s hs).has ha⟩
      · exact ⟨s, List.mem_cons_of_mem _ hs, ha⟩
    · rintro ⟨s, hs, ha⟩
      rcases List.mem_cons.1 hs with rfl | hs
      · obtain ⟨p, hp, hpa⟩ := htiles.covers a ha
        exact ⟨p, List.mem_append_left _ hp, hpa⟩
      · exact ⟨s, List.mem_append_right _ hs, ha⟩
  · rcases List.mem_append.1 hs with hs | hs
    · have hparts := htiles.within s hs
      refine ⟨whole, hwhole, hparts.trans hwithin, ?_⟩
      rcases hpieces s hs with ⟨htype, hclear⟩ | ⟨htype, hin⟩
      · refine .inl ⟨by rw [htype, ← htaken.1, hfree], fun _ a ha hta => ?_⟩
        rcases hta with hta | hta
        · exact htaken.2 a (hparts.has ha) hta
        · exact hclear a ha hta
      · exact .inr ⟨by rw [← htaken.1, hfree], htype, fun a ha => .inr (hin a ha)⟩
    · obtain ⟨whole', hwhole', hwithin', hcase'⟩ := hcons.part s (List.mem_cons_of_mem _ hs)
      refine ⟨whole', hwhole', hwithin', ?_⟩
      rcases hcase' with ⟨htype, hclear⟩ | ⟨htype, hne, hin⟩
      · refine .inl ⟨htype, fun hs' a ha hta => ?_⟩
        rcases hta with hta | hta
        · exact hclear hs' a ha hta
        · exact (hr s hs).not_has (hregion a hta) ha
      · exact .inr ⟨htype, hne, fun a ha => .inl (hin a ha)⟩
  · rcases hta with hta | hta
    · exact hcons.formerly s hs a ha hta
    · obtain rfl := eq_of_has hold hs hwhole ha (hwithin.has (hregion a hta))
      rw [← htaken.1, hfree]

/-- Addresses that are not taken keep their label. -/
theorem Carved.kept (h : Carved free taken old new) (hold : old.Pairwise Apart) (hr : r ∈ old)
    (hs : s ∈ new) (har : r.Has a) (has : s.Has a) (ha : a ∉ taken) :
    s.type = r.type := by
  obtain ⟨r', hr', hwithin, hcase⟩ := h.part s hs
  obtain rfl := eq_of_has hold hr hr' har (hwithin.has has)
  rcases hcase with ⟨htype, -⟩ | ⟨-, -, hin⟩
  · exact htype
  · exact absurd (hin a has) ha

/-- What is free has no address taken. -/
theorem Carved.clear (h : Carved free taken old new) (hs : s ∈ new) (hfree : s.type = free)
    (ha : s.Has a) : a ∉ taken := by
  obtain ⟨r, -, -, ⟨-, hclear⟩ | ⟨-, hne, -⟩⟩ := h.part s hs
  · exact hclear hfree a ha
  · exact absurd hfree hne

/-- A free region is a part of one that was free before. -/
theorem Carved.free_within (h : Carved free taken old new) (hs : s ∈ new) (hfree : s.type = free) :
    ∃ r ∈ old, r.type = free ∧ s.Within r := by
  obtain ⟨r, hr, hwithin, ⟨htype, -⟩ | ⟨-, hne, -⟩⟩ := h.part s hs
  · exact ⟨r, hr, htype ▸ hfree, hwithin⟩
  · exact absurd hfree hne

end Regions
