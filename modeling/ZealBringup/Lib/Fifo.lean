import Mathlib.Algebra.Order.Group.Nat
import Mathlib.Data.List.Forall2
import Mathlib.Data.ZMod.Defs
import Mathlib.Tactic.Abel

/-!
# A circular queue with a head and a tail

A table of `n` slots holds a queue from `head` up to `tail`; one slot stays empty, so that a full
queue differs from an empty one.

* `contents` — the queue, the oldest entry first.
* `contents_push`, `contents_pop` — a write at the tail appends, a move of the head takes the
  oldest entry.
* `contents_append` — a place on the way splits the queue.
* `Bounded` — a list of a bounded length, with a push that drops what does not fit.
* `window_push`, `window_pop` — the same for counters that run on and are taken modulo the slots.
* `Delivers` — batches are handed on whole, one after another, in any order inside a batch.
* `delivers_take_one_iff` — one entry of each batch is a delivery only if no batch has two.
-/

namespace ZealBringup.Fifo

/-! ## The queue -/

section Queue

variable {α : Type*} {n : ℕ} [NeZero n] {slots : Fin n → α} {head tail : Fin n}

/-- The entries from the head up to the tail. -/
def contents (slots : Fin n → α) (head tail : Fin n) : List α :=
  (List.range (tail - head).val).map fun j => slots (head + Fin.ofNat n j)

/-- The number of entries. -/
theorem length_contents : (contents slots head tail).length = (tail - head).val := by
  simp [contents]

theorem length_contents_lt : (contents slots head tail).length < n := by
  rw [length_contents]
  exact (tail - head).isLt

theorem contents_eq_nil_iff : contents slots head tail = [] ↔ head = tail := by
  rw [← List.length_eq_zero_iff, length_contents, Fin.val_eq_zero_iff, sub_eq_zero, eq_comm]

/-- A successor that is not zero is a successor of numbers. -/
theorem val_succ {x : Fin n} (h : x + 1 ≠ 0) : (x + 1).val = x.val + 1 := by
  have hn := x.isLt
  have hmod : (x + 1).val = (x.val + 1) % n := by simp [Fin.val_add]
  rcases Nat.lt_or_ge (x.val + 1) n with hlt | hge
  · rw [hmod, Nat.mod_eq_of_lt hlt]
  · have heq : x.val + 1 = n := by omega
    exact absurd (Fin.val_eq_zero_iff.mp (by rw [hmod, heq, Nat.mod_self])) h

theorem ofNat_val_succ (j : ℕ) : Fin.ofNat n (j + 1) = Fin.ofNat n j + 1 := by
  apply Fin.ext
  simp [Fin.ofNat, Fin.val_add]

/-- A distance below the number of slots is the distance. -/
theorem add_ofNat_eq_iff {j : ℕ} (hj : j < n) :
    head + Fin.ofNat n j = tail ↔ j = (tail - head).val := by
  have hval : (Fin.ofNat n j).val = j := Nat.mod_eq_of_lt hj
  rw [← eq_sub_iff_add_eq', Fin.ext_iff, hval]

/-- There is room as long as the tail does not come to the head. -/
theorem length_succ_lt_iff : tail + 1 ≠ head ↔ (contents slots head tail).length + 1 < n := by
  rw [length_contents]
  have hlt := (tail - head).isLt
  have hmod : (tail - head + 1).val = ((tail - head).val + 1) % n := by simp [Fin.val_add]
  have hzero : tail + 1 = head ↔ (tail - head + 1).val = 0 := by
    rw [Fin.val_eq_zero_iff, ← sub_eq_zero, sub_add_eq_add_sub]
  rw [Ne, hzero, hmod]
  constructor
  · intro h
    rcases Nat.lt_or_ge ((tail - head).val + 1) n with h' | h'
    · exact h'
    · exact absurd (by rw [show (tail - head).val + 1 = n by omega, Nat.mod_self]) h
  · intro h
    rw [Nat.mod_eq_of_lt h]
    omega

/-- **A write at the tail appends.** -/
theorem contents_push (a : α) (h : tail + 1 ≠ head) :
    contents (Function.update slots tail a) head (tail + 1) = contents slots head tail ++ [a] := by
  have hne : tail - head + 1 ≠ 0 := by
    rw [sub_add_eq_add_sub, sub_ne_zero]
    exact h
  have hval : (tail + 1 - head).val = (tail - head).val + 1 := by
    rw [← sub_add_eq_add_sub]
    exact val_succ hne
  have hlt : (tail - head).val < n := (tail - head).isLt
  unfold contents
  rw [hval, List.range_succ, List.map_append]
  congr 1
  · apply List.map_congr_left
    intro j hj
    rw [List.mem_range] at hj
    apply Function.update_of_ne
    rw [Ne, add_ofNat_eq_iff (by omega)]
    omega
  · have htail : head + Fin.ofNat n (tail - head).val = tail := (add_ofNat_eq_iff hlt).mpr rfl
    rw [List.map_singleton, htail, Function.update_self]

/-- Before the tail, a step of the head shortens the queue by one. -/
theorem val_sub_eq_succ (h : head ≠ tail) : (tail - head).val = (tail - (head + 1)).val + 1 := by
  have heq : tail - head = tail - (head + 1) + 1 := by abel
  rw [heq]
  apply val_succ
  rw [← heq, sub_ne_zero]
  exact h.symm

/-- **A move of the head takes the oldest entry.** -/
theorem contents_pop (h : head ≠ tail) :
    contents slots head tail = slots head :: contents slots (head + 1) tail := by
  unfold contents
  rw [val_sub_eq_succ h, List.range_succ_eq_map, List.map_cons, List.map_map]
  congr 1
  · simp
  · apply List.map_congr_left
    intro j _
    simp only [Function.comp_apply, ofNat_val_succ]
    congr 1
    abel

@[simp] theorem contents_self : contents slots head head = [] := contents_eq_nil_iff.mpr rfl

/-- The slot before the head is not in the queue. -/
theorem contents_update_head (a : α) (h : head ≠ tail) :
    contents (Function.update slots head a) (head + 1) tail = contents slots (head + 1) tail := by
  apply List.map_congr_left
  intro j hj
  rw [List.mem_range] at hj
  apply Function.update_of_ne
  have hlt : j + 1 < n := by
    have hlen := (tail - head).isLt
    rw [val_sub_eq_succ h] at hlen
    omega
  have hshift : head + 1 + Fin.ofNat n j = head + Fin.ofNat n (j + 1) := by
    rw [ofNat_val_succ]
    abel
  rw [hshift, Ne, add_ofNat_eq_iff hlt, sub_self]
  exact Nat.succ_ne_zero j

/-- **A place on the way splits the queue.** -/
theorem contents_append {mid : Fin n} (h : (mid - head).val ≤ (tail - head).val) :
    contents slots head tail = contents slots head mid ++ contents slots mid tail := by
  induction hd : (mid - head).val generalizing head with
  | zero =>
    have heq : head = mid := by
      rw [Fin.val_eq_zero_iff, sub_eq_zero] at hd
      exact hd.symm
    subst heq
    rw [contents_self, List.nil_append]
  | succ d ih =>
    have hmid : head ≠ mid := by
      rintro rfl
      simp at hd
    have htail : head ≠ tail := by
      rintro rfl
      simp [hd] at h
    have hd' := val_sub_eq_succ hmid
    have ht' := val_sub_eq_succ htail
    rw [contents_pop hmid, contents_pop htail, List.cons_append, ih (by omega) (by omega)]

section Step

variable {mid : Fin n} (hmid : mid ≠ tail) (hin : (mid - head).val ≤ (tail - head).val)

include hmid hin

/-- A place before the tail is followed by one. -/
theorem val_sub_lt : (mid - head).val < (tail - head).val := by
  rcases Nat.lt_or_eq_of_le hin with hlt | heq
  · exact hlt
  · exact absurd (sub_left_injective (Fin.ext heq)) hmid

theorem val_succ_sub : (mid + 1 - head).val = (mid - head).val + 1 := by
  have hlt := val_sub_lt hmid hin
  have hn := (tail - head).isLt
  have hmod : (mid - head + 1).val = ((mid - head).val + 1) % n := by simp [Fin.val_add]
  rw [← sub_add_eq_add_sub, hmod, Nat.mod_eq_of_lt (by omega)]

theorem contents_succ : contents slots head (mid + 1) = contents slots head mid ++ [slots mid] := by
  have heq : head + Fin.ofNat n (mid - head).val = mid :=
    (add_ofNat_eq_iff (mid - head).isLt).mpr rfl
  unfold contents
  rw [val_succ_sub hmid hin, List.range_succ, List.map_append, List.map_singleton, heq]

end Step

end Queue

/-! ## A bounded queue -/

section Bounded

variable {α : Type*} {cap : ℕ}

/-- A queue of at most `cap` entries. -/
abbrev Bounded (α : Type*) (cap : ℕ) := { l : List α // l.length ≤ cap }

/-- An entry at the end; a full queue drops it. -/
def Bounded.push (q : Bounded α cap) (a : α) : Bounded α cap :=
  if h : q.val.length < cap then ⟨q.val ++ [a], by rw [List.length_append]; exact h⟩ else q

def Bounded.pop (q : Bounded α cap) : Option α × Bounded α cap :=
  (q.val.head?, ⟨q.val.tail, by rw [List.length_tail]; exact (Nat.sub_le _ _).trans q.property⟩)

/-- The first occurrence of an entry taken out. -/
def Bounded.erase [BEq α] (q : Bounded α cap) (a : α) : Bounded α cap :=
  ⟨q.val.erase a, List.length_erase_le.trans q.property⟩

theorem Bounded.val_push (q : Bounded α cap) (a : α) :
    (q.push a).val = if q.val.length < cap then q.val ++ [a] else q.val := by
  unfold Bounded.push
  split <;> rfl

theorem Bounded.val_pop (q : Bounded α cap) : q.pop.2.val = q.val.tail := rfl

end Bounded

/-! ## Free-running counters -/

section Window

variable {α : Type*} {N n : ℕ} [NeZero n] {slots : Fin n → α} {first last : Fin N}

/-- The slot of a counter. -/
def slot (n : ℕ) [NeZero n] (i : Fin N) : Fin n := Fin.ofNat n i.val

/-- The slot of a counter some steps on. -/
theorem slot_add_val (hdvd : n ∣ N) (i x : Fin N) : (slot n (i + x)).val = (i.val + x.val) % n := by
  simp [slot, Fin.val_add, Nat.mod_mod_of_dvd _ hdvd]

/-- Two counters that differ by less than a round have different slots. -/
theorem slot_ne_of_lt (hdvd : n ∣ N) {i x y : Fin N} (hxy : x.val < y.val) (hy : y.val < n) :
    slot n (i + x) ≠ slot n (i + y) := by
  intro heq
  have hval := congrArg Fin.val heq
  rw [slot_add_val hdvd, slot_add_val hdvd] at hval
  have hmod : x.val ≡ y.val [MOD n] := Nat.ModEq.add_left_cancel' i.val hval
  have hx := Nat.mod_eq_of_lt (hxy.trans hy)
  have hy' := Nat.mod_eq_of_lt hy
  unfold Nat.ModEq at hmod
  omega

variable [NeZero N]

/-- The entries from one counter up to another, in a table that the counters run round. -/
def window (slots : Fin n → α) (first last : Fin N) : List α :=
  (List.range (last - first).val).map fun j => slots (slot n (first + Fin.ofNat N j))

theorem length_window : (window slots first last).length = (last - first).val := by
  simp [window]

@[simp] theorem window_self : window slots first first = [] := by
  rw [← List.length_eq_zero_iff, length_window, sub_self]
  rfl

theorem window_eq_nil_iff : window slots first last = [] ↔ first = last := by
  rw [← List.length_eq_zero_iff, length_window, Fin.val_eq_zero_iff, sub_eq_zero, eq_comm]

/-- **A write at the last counter appends while there is a free slot.** -/
theorem window_push (hdvd : n ∣ N) (hN : n < N) (a : α) (h : (window slots first last).length < n) :
    window (Function.update slots (slot n last) a) first (last + 1) =
      window slots first last ++ [a] := by
  rw [length_window] at h
  have hne : last - first + 1 ≠ 0 := by
    intro h0
    have hval := congrArg Fin.val h0
    rw [Fin.val_add, Fin.val_one', Nat.add_mod_mod, Nat.mod_eq_of_lt (by omega)] at hval
    exact Nat.succ_ne_zero _ hval
  have hval : (last + 1 - first).val = (last - first).val + 1 := by
    rw [← sub_add_eq_add_sub]
    exact val_succ hne
  have hlast : first + (last - first) = last := by abel
  unfold window
  rw [hval, List.range_succ, List.map_append]
  congr 1
  · apply List.map_congr_left
    intro j hj
    rw [List.mem_range] at hj
    apply Function.update_of_ne
    have hslot : slot n last = slot n (first + (last - first)) := by rw [hlast]
    rw [hslot]
    apply slot_ne_of_lt hdvd _ h
    rw [Fin.val_ofNat, Nat.mod_eq_of_lt (by omega)]
    exact hj
  · have heq : Fin.ofNat N (last - first).val = last - first := by
      apply Fin.ext
      rw [Fin.val_ofNat, Nat.mod_eq_of_lt (last - first).isLt]
    rw [List.map_singleton, heq, hlast, Function.update_self]

/-- **A step of the first counter takes the oldest entry.** -/
theorem window_pop (h : first ≠ last) :
    window slots first last = slots (slot n first) :: window slots (first + 1) last := by
  have hval : (last - first).val = (last - (first + 1)).val + 1 := by
    have heq : last - first = last - (first + 1) + 1 := by abel
    rw [heq]
    apply val_succ
    rw [← heq, sub_ne_zero]
    exact h.symm
  unfold window
  rw [hval, List.range_succ_eq_map, List.map_cons, List.map_map]
  congr 1
  · simp
  · apply List.map_congr_left
    intro j _
    simp only [Function.comp_apply, ofNat_val_succ]
    congr 2
    abel

end Window

/-! ## Deliveries -/

section Deliveries

variable {α : Type*} {batches : List (List α)} {c : List α}

/-- The batches are handed on whole, one after another. -/
def Delivers (batches : List (List α)) (out : List α) : Prop :=
  ∃ parts, List.Forall₂ List.Perm parts batches ∧ out = parts.flatten

theorem delivers_flatten (batches : List (List α)) : Delivers batches batches.flatten :=
  ⟨batches, List.forall₂_same.mpr fun c _ => List.Perm.refl c, rfl⟩

/-- A delivery has every entry of every batch. -/
theorem Delivers.length_eq {out : List α} (h : Delivers batches out) :
    out.length = batches.flatten.length := by
  obtain ⟨parts, hparts, rfl⟩ := h
  rw [List.length_flatten, List.length_flatten]
  congr 1
  induction hparts with
  | nil => rfl
  | cons hp _ ih => rw [List.map_cons, List.map_cons, hp.length_eq, ih]

theorem length_flatMap_take_one_le :
    (batches.flatMap (List.take 1)).length ≤ batches.flatten.length := by
  induction batches with
  | nil => simp
  | cons c batches ih =>
    rw [List.flatMap_cons, List.flatten_cons, List.length_append, List.length_append]
    have htake : (c.take 1).length ≤ c.length := by simp
    omega

/-- **One entry of each batch is a delivery only if no batch has two.** -/
theorem delivers_take_one_iff :
    Delivers batches (batches.flatMap (List.take 1)) ↔ ∀ c ∈ batches, c.length ≤ 1 := by
  constructor
  · intro h
    have hlen := h.length_eq
    clear h
    induction batches with
    | nil => simp
    | cons c batches ih =>
      rw [List.flatMap_cons, List.flatten_cons, List.length_append, List.length_append,
        List.length_take] at hlen
      have hrest : (batches.flatMap (List.take 1)).length ≤ batches.flatten.length :=
      length_flatMap_take_one_le
      rw [List.forall_mem_cons]
      exact ⟨by omega, ih (by omega)⟩
  · intro h
    have heq : batches.flatMap (List.take 1) = batches.flatten := by
      rw [← List.flatMap_id']
      apply List.flatMap_congr
      intro c hc
      exact List.take_of_length_le (h c hc)
    rw [heq]
    exact delivers_flatten batches

end Deliveries

end ZealBringup.Fifo
