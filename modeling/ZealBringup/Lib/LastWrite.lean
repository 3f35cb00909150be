import Mathlib

/-!
# Logs in which the last entry for a key wins

A log is a list of entries, oldest first; `key` reads the key of an entry.  The
meaning of the log is the partial map `lastWrite`: for each key its newest entry.
Compaction throws away every entry that a later one shadows.

* `lastWrite_append`, `lastWrite_concat` — appending an entry redefines its key
  and nothing else.
* `keys_eq_of_foldl_update_eq` — logs of the same effect have the same keys.
* `keepLatest` — the compacted log.  It is a sublist (`keepLatest_sublist`), has
  one entry for each key (`keepLatest_nodup`) and the same meaning
  (`lastWrite_keepLatest`).
-/

namespace LastWrite

variable {α κ : Type*} [DecidableEq κ] (key : α → κ)

/-- The newest entry with key `k`. -/
def lastWrite (k : κ) : List α → Option α
  | [] => none
  | a :: as => (lastWrite k as).or (if key a = k then some a else none)

@[simp] theorem lastWrite_nil (k : κ) : lastWrite key k [] = none := rfl

theorem lastWrite_cons (k : κ) (a : α) (as : List α) :
    lastWrite key k (a :: as) = (lastWrite key k as).or (if key a = k then some a else none) := rfl

theorem lastWrite_append (k : κ) (u v : List α) :
    lastWrite key k (u ++ v) = (lastWrite key k v).or (lastWrite key k u) := by
  induction u with
  | nil => simp
  | cons a u ih => rw [List.cons_append, lastWrite_cons, ih, lastWrite_cons, Option.or_assoc]

/-- Appending one entry redefines its key and no other. -/
theorem lastWrite_concat (k : κ) (u : List α) (a : α) :
    lastWrite key k (u ++ [a]) = if key a = k then some a else lastWrite key k u := by
  rw [lastWrite_append, lastWrite_cons]
  by_cases h : key a = k <;> simp [h]

variable {k : κ} {as : List α}

theorem lastWrite_mem {a : α} (h : lastWrite key k as = some a) :
    a ∈ as ∧ key a = k := by
  induction as with
  | nil => simp at h
  | cons b as ih =>
    rw [lastWrite_cons] at h
    cases hb : lastWrite key k as with
    | some c =>
      rw [hb, Option.some_or] at h
      obtain ⟨h1, h2⟩ := ih (hb.trans h)
      exact ⟨List.mem_cons_of_mem _ h1, h2⟩
    | none =>
      rw [hb, Option.none_or] at h
      split at h
      · rename_i hk
        cases h
        exact ⟨List.mem_cons_self .., hk⟩
      · simp at h

theorem lastWrite_eq_none_iff :
    lastWrite key k as = none ↔ ∀ a ∈ as, key a ≠ k := by
  induction as with
  | nil => simp
  | cons b as ih =>
    rw [lastWrite_cons, Option.or_eq_none_iff, ih]
    by_cases h : key b = k <;> simp [h]

/-- Whether a key has an entry only depends on the keys. -/
theorem lastWrite_eq_none_congr {k : κ} {as bs : List α} (h : as.map key = bs.map key) :
    lastWrite key k as = none ↔ lastWrite key k bs = none := by
  have hkeys : ∀ cs : List α, (∀ c ∈ cs, key c ≠ k) ↔ k ∉ cs.map key := by simp
  rw [lastWrite_eq_none_iff, lastWrite_eq_none_iff, hkeys, hkeys, h]

/-- Redefining a function entry by entry leaves it at the newest entries. -/
theorem foldl_update {β : Type*} (f : α → β) (M : κ → β) (as : List α) (k : κ) :
    as.foldl (fun M a => Function.update M (key a) (f a)) M k =
      ((lastWrite key k as).map f).getD (M k) := by
  induction as generalizing M with
  | nil => rfl
  | cons a as ih =>
    rw [List.foldl_cons, ih, lastWrite_cons]
    cases lastWrite key k as with
    | some b => rfl
    | none =>
      rw [Option.none_or]
      by_cases h : key a = k
      · subst h
        rw [if_pos rfl]
        exact Function.update_self ..
      · rw [if_neg h]
        exact Function.update_of_ne (Ne.symm h) _ _

/-- Two logs that redefine every function alike have entries for the same keys. -/
theorem keys_eq_of_foldl_update_eq {β : Type*} [Nontrivial β] (f : α → β) {bs : List α}
    (h : ∀ M : κ → β, as.foldl (fun M a => Function.update M (key a) (f a)) M = bs.foldl (fun M a => Function.update M (key a) (f a)) M)
    (k : κ) :
    k ∈ as.map key ↔ k ∈ bs.map key := by
  -- A key that only one of the logs has shows on a function with another value there.
  have hone : ∀ cs ds : List α, (∀ M : κ → β,
      cs.foldl (fun M a => Function.update M (key a) (f a)) M =
        ds.foldl (fun M a => Function.update M (key a) (f a)) M) →
      k ∈ cs.map key → k ∈ ds.map key := by
    intro cs ds heq hk
    by_contra hno
    have hnone : lastWrite key k ds = none := (lastWrite_eq_none_iff key).mpr fun a ha hak =>
      hno (List.mem_map.mpr ⟨a, ha, hak⟩)
    cases hsome : lastWrite key k cs with
    | none =>
      obtain ⟨a, ha, hak⟩ := List.mem_map.mp hk
      exact (lastWrite_eq_none_iff key).mp hsome a ha hak
    | some a =>
      obtain ⟨v, hv⟩ := exists_ne (f a)
      have hval := congrFun (heq fun _ => v) k
      rw [foldl_update, foldl_update, hsome, hnone] at hval
      exact hv hval.symm
  exact ⟨hone as bs h, hone bs as fun M => (h M).symm⟩

/-- Renaming the keys one to one changes nothing. -/
theorem lastWrite_injective {κ' : Type*} [DecidableEq κ'] {f : κ → κ'} (hf : Function.Injective f)
    (k : κ) (as : List α) : lastWrite (fun a => f (key a)) (f k) as = lastWrite key k as := by
  induction as with
  | nil => rfl
  | cons a as ih =>
    rw [lastWrite_cons, lastWrite_cons, ih]
    simp only [hf.eq_iff]

/-- The compacted log: the entries no later entry shadows. -/
def keepLatest : List α → List α
  | [] => []
  | a :: as => if lastWrite key (key a) as = none then a :: keepLatest as else keepLatest as

@[simp] theorem keepLatest_nil : keepLatest key ([] : List α) = [] := rfl

theorem keepLatest_cons (a : α) (as : List α) :
    keepLatest key (a :: as) =
      if lastWrite key (key a) as = none then a :: keepLatest key as else keepLatest key as := rfl

theorem keepLatest_sublist (as : List α) : (keepLatest key as).Sublist as := by
  induction as with
  | nil => simp
  | cons a as ih =>
    rw [keepLatest_cons]
    split
    · exact ih.cons_cons a
    · exact ih.cons a

/-- **Compaction keeps the meaning of the log.** -/
theorem lastWrite_keepLatest (k : κ) (as : List α) :
    lastWrite key k (keepLatest key as) = lastWrite key k as := by
  induction as with
  | nil => rfl
  | cons a as ih =>
    rw [keepLatest_cons, lastWrite_cons]
    split
    · rw [lastWrite_cons, ih]
    · rename_i h
      rw [ih]
      by_cases hk : key a = k
      · subst hk
        obtain ⟨b, hb⟩ := Option.ne_none_iff_exists'.1 h
        rw [hb, Option.some_or]
      · rw [if_neg hk, Option.or_none]

/-- The compacted log has one entry for each key. -/
theorem keepLatest_nodup (as : List α) : ((keepLatest key as).map key).Nodup := by
  induction as with
  | nil => simp
  | cons a as ih =>
    rw [keepLatest_cons]
    split
    · rename_i h
      rw [List.map_cons, List.nodup_cons]
      refine ⟨?_, ih⟩
      intro hm
      obtain ⟨b, hb, hkb⟩ := List.mem_map.1 hm
      exact (lastWrite_eq_none_iff key).1 h b ((keepLatest_sublist key as).subset hb) hkb
    · exact ih

/-- Compaction loses no key. -/
theorem mem_map_keepLatest :
    k ∈ (keepLatest key as).map key ↔ k ∈ as.map key := by
  have hkeys : ∀ cs : List α, k ∈ cs.map key ↔ lastWrite key k cs ≠ none := by
    intro cs
    rw [Ne, lastWrite_eq_none_iff]
    simp
  rw [hkeys, hkeys, lastWrite_keepLatest]

end LastWrite
