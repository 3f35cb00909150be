import Mathlib.Data.Fintype.Card
import Mathlib.Data.Finset.Card

/-!
# Open addressing

A table of `n` cells stores at most one entry a key.  The search for a key follows the key's own
path and stops at the first cell that is free or holds the key; an entry is stored in the cell
where the search stops.  Nothing is ever taken out.

* `Table.Sound` — every entry is found by the search for its key, so no free cell precedes it on
  its path.
* `Sound.store` — storing at the cell the search found keeps that.
* `holds_store` — the table is a map, and storing is an update of it.
* `exists_find` — a path over all cells finds a place as long as there are no more keys than
  cells.
-/

namespace Probe

variable {K V : Type*} {n : ℕ}

/-- The cells; a free one holds nothing. -/
abbrev Table (K V : Type*) (n : ℕ) := Fin n → Option (K × V)

/-- A key has a value. -/
def Holds (t : Table K V n) (k : K) (v : V) : Prop := ∃ c, t c = some (k, v)

variable [DecidableEq K] {path : K → List (Fin n)} {t : Table K V n} {k : K} {v : V} {c : Fin n}

/-- The cell is free or holds the key. -/
def stops (t : Table K V n) (k : K) (c : Fin n) : Bool := (t c).all fun e => decide (e.1 = k)

/-- The first cell on the path where the search stops. -/
def find (path : K → List (Fin n)) (t : Table K V n) (k : K) : Option (Fin n) :=
  (path k).find? (stops t k)

/-- Every entry is where the search for its key stops. -/
def Sound (path : K → List (Fin n)) (t : Table K V n) : Prop :=
  ∀ c e, t c = some e → find path t e.1 = some c

/-- Storing an entry. -/
def store (t : Table K V n) (c : Fin n) (k : K) (v : V) : Table K V n :=
  Function.update t c (some (k, v))

theorem sound_empty : Sound path (fun _ => none : Table K V n) := by
  intro c e he
  cases he

theorem stops_iff : stops t k c ↔ ∀ e, t c = some e → e.1 = k := by
  simp [stops, Option.all_eq_true]

theorem stops_of_find (h : find path t k = some c) : stops t k c := List.find?_some h

/-- A search that passes over more stops where it stopped, if it still stops there. -/
theorem find?_of_imp {α : Type*} {p q : α → Bool} {l : List α} {a : α} (h : l.find? p = some a)
    (hqp : ∀ x, q x → p x) (hq : q a) : l.find? q = some a := by
  induction l with
  | nil => cases h
  | cons x l ih =>
    by_cases hx : p x
    · rw [List.find?_cons_of_pos hx] at h
      cases h
      exact List.find?_cons_of_pos hq
    · rw [List.find?_cons_of_neg hx] at h
      rw [List.find?_cons_of_neg (fun hqx => hx (hqp x hqx))]
      exact ih h

theorem stops_store_self (hs : stops t k c) (v : V) : stops (store t c k v) k = stops t k := by
  funext x
  by_cases hx : x = c
  · subst hx
    rw [hs, stops_iff]
    intro e he
    rw [store, Function.update_self] at he
    cases he
    rfl
  · rw [stops, stops, store, Function.update_of_ne hx]

theorem stops_of_store {k' : K} (hne : k' ≠ k) {x : Fin n} (h : stops (store t c k v) k' x) :
    stops t k' x := by
  by_cases hx : x = c
  · subst hx
    have hk : k = k' := stops_iff.mp h (k, v) (Function.update_self ..)
    exact absurd hk.symm hne
  · rwa [stops, store, Function.update_of_ne hx] at h

/-- Storing an entry where the search for its key stopped keeps every entry on its path: a free
cell only becomes one the other searches pass over. -/
theorem Sound.store (h : Sound path t) (hf : find path t k = some c) (v : V) :
    Sound path (store t c k v) := by
  have hs := stops_of_find hf
  intro c' e he
  by_cases hc : c' = c
  · subst hc
    rw [Probe.store, Function.update_self] at he
    cases he
    rw [find, stops_store_self hs]
    exact hf
  · have he' : t c' = some e := by rwa [Probe.store, Function.update_of_ne hc] at he
    have hfound := h c' e he'
    have hne : e.1 ≠ k := by
      intro hk
      rw [hk, hf] at hfound
      exact hc (Option.some.inj hfound).symm
    refine find?_of_imp hfound (fun x hx => stops_of_store hne hx) ?_
    rw [stops_iff]
    intro e' he''
    rw [he] at he''
    cases he''
    rfl

/-- No key is stored twice. -/
theorem Sound.injective (h : Sound path t) {c c' : Fin n} {e e' : K × V} (he : t c = some e)
    (he' : t c' = some e') (hk : e.1 = e'.1) : c = c' := by
  have h₁ := h c e he
  have h₂ := h c' e' he'
  rw [hk, h₂] at h₁
  exact (Option.some.inj h₁).symm

/-- The table is a map: storing is an update of it. -/
theorem holds_store (h : Sound path t) (hf : find path t k = some c) (v : V) (k' : K) (v' : V) :
    Holds (store t c k v) k' v' ↔ if k' = k then v' = v else Holds t k' v' := by
  have hs := stops_of_find hf
  split
  · rename_i hk
    subst hk
    constructor
    · rintro ⟨x, hx⟩
      have hself : store t c k' v c = some (k', v) := Function.update_self ..
      have hxc := (h.store hf v).injective hx hself rfl
      subst hxc
      rw [hself] at hx
      cases hx
      rfl
    · rintro rfl
      exact ⟨c, Function.update_self ..⟩
  · rename_i hk
    constructor
    · rintro ⟨x, hx⟩
      by_cases hxc : x = c
      · subst hxc
        rw [store, Function.update_self] at hx
        cases hx
        exact absurd rfl hk
      · exact ⟨x, by rwa [store, Function.update_of_ne hxc] at hx⟩
    · rintro ⟨x, hx⟩
      have hxc : x ≠ c := by
        rintro rfl
        exact hk (stops_iff.mp hs _ hx)
      exact ⟨x, by rwa [store, Function.update_of_ne hxc]⟩

/-- A value the search stops at is the value of the key. -/
theorem holds_of_find (hf : find path t k = some c) {e : K × V} (he : t c = some e) :
    Holds t k e.2 := by
  have hk := stops_iff.mp (stops_of_find hf) e he
  exact ⟨c, by rw [he, ← hk]⟩

theorem not_holds_of_find (h : Sound path t) (hf : find path t k = some c) (hc : t c = none)
    (v : V) : ¬ Holds t k v := by
  rintro ⟨x, hx⟩
  have hfound := h x _ hx
  rw [hf] at hfound
  cases hfound
  rw [hc] at hx
  cases hx

/-- While the keys in use are no more than the cells, the search for one of them stops: a full
table would hold `n` keys other than the one looked for. -/
theorem exists_find (h : Sound path t) (hpath : ∀ c, c ∈ path k) {s : Finset K}
    (hs : s.card ≤ n) (hk : k ∈ s) (hin : ∀ c e, t c = some e → e.1 ∈ s) :
    ∃ c, find path t k = some c := by
  by_contra hnone
  have hnone : find path t k = none := by
    cases hf : find path t k with
    | none => rfl
    | some c => exact absurd ⟨c, hf⟩ hnone
  have hfull : ∀ c, ∃ e, t c = some e ∧ e.1 ≠ k := by
    intro c
    have hc := List.find?_eq_none.mp hnone c (hpath c)
    rw [stops_iff] at hc
    push Not at hc
    exact hc
  choose e he hek using hfull
  have hinj : Function.Injective fun c => (e c).1 :=
    fun c c' hcc => h.injective (he c) (he c') hcc
  have hmaps : ∀ c ∈ (Finset.univ : Finset (Fin n)), (e c).1 ∈ s.erase k :=
    fun c _ => Finset.mem_erase.mpr ⟨hek c, hin c _ (he c)⟩
  have hcard := Finset.card_le_card_of_injOn _ hmaps hinj.injOn
  rw [Finset.card_univ, Fintype.card_fin, Finset.card_erase_of_mem hk] at hcard
  have hpos : 0 < s.card := Finset.card_pos.mpr ⟨k, hk⟩
  omega

end Probe
