import Mathlib
import ZealBringup.Heap.Alloc

/-!
# Runs of the heap

What the heap is for is said by the blocks in use alone: the gaps between them are the free blocks,
and the first gap that is large enough is cut.  A run is any sequence of requests by clients that
give back only what is in use, keep control records in place and store nothing into headers and
counts.

* `Tiles.eq_fill` — the blocks in use say where the free ones are.
* `heap_refines` — the functions answer as the blocks in use say, and the heap stays sound.
* `stored_word_stays` — what is stored in a block stays until the block is given back.
* `all_given_back` — without blocks in use each arena is one block.
-/

namespace ZealBringup.Heap

open Links

attribute [local instance] twoArenas

variable {m : Machine} {s : State} {a : Fin 2} {i j x n : ℕ} {xs ys : List Blk} {u v : Blk} {l : Live}

/-! ## The free blocks follow from the others -/

/-- The free block between two places, unless they are the same. -/
def gap (i j : ℕ) : List Blk := if i = j then [] else [⟨i, j - i - 64, none⟩]

/-- All blocks between two places, from those in use. -/
def fill : ℕ → List Blk → ℕ → List Blk
  | i, [], j => gap i j
  | i, u :: us, j => gap i u.addr ++ u :: fill u.fin us j

theorem gap_self : gap i i = [] := if_pos rfl

/-- **Where the free blocks are** follows from where the blocks in use are. -/
theorem Tiles.eq_fill (h : Tiles i xs j) (hm : Merged xs) : xs = fill i (lives xs) j := by
  induction xs generalizing i with
  | nil =>
    obtain rfl : i = j := h
    exact gap_self.symm
  | cons b xs ih =>
    obtain ⟨rfl, h⟩ := h
    have ih := ih h hm.tail
    cases hb : b.live with
    | some l =>
      rw [lives_cons_some hb, fill, gap_self, ← ih]
      rfl
    | none =>
      -- a free block ends where the next block in use begins
      have hgap : ∀ k, b.fin = k → gap b.addr k = [b] := by
        rintro k rfl
        have hsize : b.fin - b.addr - 64 = b.size := by rw [Blk.fin]; omega
        rw [gap, if_neg (by rw [Blk.fin]; omega), hsize, ← hb]
      rw [lives_cons_none hb]
      cases xs with
      | nil => exact (hgap j h).symm
      | cons c xs =>
        obtain ⟨l, hc⟩ := Option.ne_none_iff_exists'.mp
          ((List.isChain_cons_cons.mp hm).1.resolve_left fun hne => hne hb)
        rw [lives_cons_some hc] at ih ⊢
        rw [fill, h.1, gap_self] at ih
        rw [fill, hgap c.addr h.1.symm, ih]
        rfl

/-! ## Requests -/

/-- What clients ask for: a block from the arena that its owner names, a block or all blocks of an
owner given back, and a word stored. -/
inductive Request where
  | malloc (count : ℤ) (owner pc : ℕ) (a : Fin 2)
  | free (p : ℕ)
  | reclaim (o : ℕ)
  | store (x v : ℕ)

/-- The answer; a request that fails leaves everything as it is. -/
def outcome (s : State) : Except Halt (State × ℕ) → Option (State × Option ℕ)
  | .ok (s', p) => some (s', some p)
  | .error (.fail _) => some (s, none)
  | .error .rounds => none

def Machine.serve (m : Machine) (s : State) : Request → Option (State × Option ℕ)
  | .malloc count owner pc _ => outcome s (m.arenaAlloc dataBytes count owner pc s)
  | .free p => outcome s ((m.free dataBytes p s).map (·, 0))
  | .reclaim o => outcome s ((m.reclaimGuestHeap dataBytes o s).map (·, 0))
  | .store x v => some (s.put x v, some 0)

def Machine.run (m : Machine) : State → List Request → Option (State × List (Option ℕ))
  | s, [] => some (s, [])
  | s, r :: rs => do
    let (s, p) ← m.serve s r
    let (s, ps) ← m.run s rs
    return (s, p :: ps)

/-- The blocks of the arenas, from those in use. -/
def Machine.layout (m : Machine) (us : Fin 2 → List Blk) (a : Fin 2) : List Blk :=
  fill (m.arenas a) (us a) (m.arenas a + arenaBytes a)

/-- A request on the blocks in use alone. -/
def Machine.answer (m : Machine) (us : Fin 2 → List Blk) : Request → (Fin 2 → List Blk) × Option ℕ
  | .malloc count owner pc a =>
    if count < 0 ∨ (dataBytes : ℤ) < count then (us, none)
    else match place (rounded count.toNat) ⟨count.toNat, owner, pc⟩ (m.layout us a) with
      | some (p, bs) => (Function.update us a (lives bs), some (p + 64))
      | none => (us, none)
  | .free p => (fun a => (us a).filter fun u => !(u.addr + 64 == p), some 0)
  | .reclaim o => (fun a => (us a).filter fun u => !u.ownedBy o, some 0)
  | .store _ _ => (us, some 0)

def Machine.answers (m : Machine) : (Fin 2 → List Blk) → List Request →
    (Fin 2 → List Blk) × List (Option ℕ)
  | us, [] => (us, [])
  | us, r :: rs =>
    let (us, p) := m.answer us r
    let (us, ps) := m.answers us rs
    (us, p :: ps)

variable {owners : Set ℕ} {s' : State} {us bs bs' : Fin 2 → List Blk} {rs : List Request}
  {r : Request}

/-- No control record in use is in a block that is given back. -/
def Spared (owners : Set ℕ) (us : Fin 2 → List Blk) (p : Blk → Bool) : Prop :=
  ∀ a, ∀ u ∈ us a, p u → ∀ o ∈ owners, o + usedOff ∉ u.bytes

/-- What clients promise. -/
def Allowed (m : Machine) (owners : Set ℕ) (s : State) (us : Fin 2 → List Blk) : Request → Prop
  | .malloc _ owner _ a => owner ∈ owners ∧ a = arenaFor s owner
  | .free p => (p = 0 ∨ ∃ a, ∃ u ∈ us a, p = u.addr + 64) ∧ Spared owners us fun u => u.addr + 64 == p
  | .reclaim o => o ∈ owners ∧ Spared owners us (Blk.ownedBy o)
  | .store x _ => (∀ a, x ∉ headerWords (m.layout us a)) ∧ ∀ o ∈ owners, x ≠ o + usedOff

/-- A run in which they keep their promises. -/
def Follows (m : Machine) (owners : Set ℕ) : State → (Fin 2 → List Blk) → List Request → Prop
  | _, _, [] => True
  | s, us, r :: rs => Allowed m owners s us r ∧
      ∀ s' p, m.serve s r = some (s', p) → Follows m owners s' (m.answer us r).1 rs

/-- **What every state of a run keeps.** -/
structure Kept (m : Machine) (owners : Set ℕ) (s : State) (us : Fin 2 → List Blk) : Prop where
  sound : Sound m owners s (m.layout us)
  inUse : ∀ a, lives (m.layout us a) = us a
  homed : Homed m owners (m.layout us)
  fits : ∀ a, ∀ u ∈ us a, ∀ l, u.live = some l → l.requested ≤ u.size

/-! ## One request -/

theorem Sound.kept (h : Sound m owners s bs) (hl : ∀ a, lives (bs a) = us a) (hh : Homed m owners bs)
    (hfits : ∀ a, ∀ u ∈ us a, ∀ l, u.live = some l → l.requested ≤ u.size) : Kept m owners s us := by
  obtain rfl : us = fun a => lives (bs a) := funext fun a => (hl a).symm
  have heq : bs = m.layout fun a => lives (bs a) :=
    funext fun a => (h.arena a).tiles.eq_fill (h.merged a)
  exact ⟨heq ▸ h, fun a => heq ▸ rfl, heq ▸ hh, hfits⟩

theorem arenaBytes_bounds :
    ∀ a, 80 ≤ arenaBytes a ∧ arenaBytes a % 16 = 0 ∧ arenaBytes a ≤ dataBytes := by decide

theorem Arena.length_lt (h : Arena m s a xs) : xs.length < dataBytes := by
  have hlen : ∀ {i j : ℕ} {xs : List Blk}, Tiles i xs j → i + 64 * xs.length ≤ j := by
    intro i j xs ht
    induction xs generalizing i with
    | nil => exact Nat.le_of_eq ht
    | cons b xs ih =>
      obtain ⟨rfl, ht⟩ := ht
      have := ih ht
      rw [Blk.fin] at this
      rw [List.length_cons]
      omega
  have hle := (arenaBytes_bounds a).2.2
  have := hlen h.tiles
  have hpos : 0 < dataBytes := by decide
  omega

/-- A block that is taken has the bytes that are asked for, and the others stay. -/
theorem place_lives {p : ℕ} (h : place n l xs = some (p, ys)) :
    (∀ b ∈ lives ys, b ∈ lives xs ∨ b.live = some l ∧ n ≤ b.size) ∧ lives xs ⊆ lives ys := by
  rcases fits_cases n xs with hnone | ⟨pre, u, post, rfl, hpre, hu⟩
  · rw [place_none hnone] at h
    cases h
  · rw [place_append hpre hu] at h
    obtain ⟨-, rfl⟩ := Prod.mk.inj (Option.some.inj h)
    obtain ⟨hnone, hle⟩ := fits_iff.mp hu
    rw [lives_taken, lives_append, lives_cons_none hnone]
    refine ⟨fun b hb => ?_, ((List.sublist_cons_self _ _).append_left _).subset⟩
    rcases List.mem_cons.mp (List.perm_middle.subset hb) with rfl | hb
    · refine Or.inr ⟨rfl, ?_⟩
      rw [Blk.taken]
      split
      · exact le_rfl
      · exact hle
    · exact Or.inl hb

theorem Sound.notMem_countWords {o : ℕ} (h : Sound m owners s bs) (hu : u ∈ bs a) (hx : x ∈ u.bytes)
    (hne : x ≠ o + usedOff) : x ∉ countWords m o := by
  rintro (rfl | ⟨f, hf, rfl⟩)
  · exact hne rfl
  · have hin := (h.arena a).tiles.within.2 u hu
    exact m.heapUsed_outside (mem_of_fiberOf hf) a ⟨by have := hx.1; omega, hx.2.trans_le hin.2⟩

theorem Sound.addr_inj {a' : Fin 2} (h : Sound m owners s bs) (hu : u ∈ bs a) (hv : v ∈ bs a')
    (heq : u.addr = v.addr) : a = a' ∧ u = v := by
  by_cases ha : a = a'
  · subst ha
    exact ⟨rfl, List.inj_on_of_nodup_map (h.arena a).nodup hu hv heq⟩
  · have hu' := (h.arena a).tiles.within.2 u hu
    have hv' := (h.arena a').tiles.within.2 v hv
    rw [Blk.fin] at hu' hv'
    refine absurd ?_ (Set.disjoint_left.mp (m.arenas_disjoint ha) ⟨hu'.1, by omega⟩)
    exact ⟨heq ▸ hv'.1, by omega⟩

/-- A request leaves a block in use and a word in it alone. -/
def Leaves (u : Blk) (x : ℕ) (r : Request) : Prop :=
  r ≠ .free (u.addr + 64) ∧ (∀ l, u.live = some l → r ≠ .reclaim l.owner) ∧ ∀ v, r ≠ .store x v

/-- **What one request does**: the answer, and what becomes of the words that clients have stored. -/
def Served (m : Machine) (owners : Set ℕ) (s : State) (us : Fin 2 → List Blk) (r : Request) : Prop :=
  ∃ s', m.serve s r = some (s', (m.answer us r).2) ∧ Kept m owners s' (m.answer us r).1 ∧
    ∀ a, ∀ u ∈ us a, ∀ x ∈ u.bytes, (∀ o ∈ owners, x ≠ o + usedOff) → Leaves u x r →
      u ∈ (m.answer us r).1 a ∧ s'.word x = s.word x

theorem Kept.malloc {count : ℤ} {owner pc : ℕ} (h : Kept m owners s us)
    (hr : Allowed m owners s us (.malloc count owner pc a)) :
    Served m owners s us (.malloc count owner pc a) := by
  obtain ⟨ho, ha⟩ := hr
  rw [Served, Machine.serve, Machine.answer]
  by_cases hcount : count < 0 ∨ (dataBytes : ℤ) < count
  · rw [if_pos hcount, Machine.arenaAlloc, if_pos hcount]
    exact ⟨s, rfl, h, fun _ _ hu _ _ _ _ => ⟨hu, rfl⟩⟩
  rw [if_neg hcount]
  obtain ⟨hsome, hnone⟩ := h.sound.arenaAlloc pc h.homed ho ha (h.sound.arena a).length_lt
    (show 0 ≤ count ∧ count ≤ (dataBytes : ℤ) by omega) rfl
  cases hplace : place (rounded count.toNat) ⟨count.toNat, owner, pc⟩ (m.layout us a) with
  | none =>
    obtain ⟨msg, hrun⟩ := hnone hplace
    exact ⟨s, by rw [hrun]; rfl, h, fun _ _ hu _ _ _ _ => ⟨hu, rfl⟩⟩
  | some r =>
    obtain ⟨p, ys⟩ := r
    obtain ⟨s', hrun, hs', hh', hwords⟩ := hsome p ys hplace
    obtain ⟨hnew, hold⟩ := place_lives hplace
    rw [h.inUse] at hnew hold
    dsimp only
    have hlives : ∀ a', lives (Function.update (m.layout us) a ys a') =
        Function.update us a (lives ys) a' := fun a' => by
      rw [Function.apply_update (fun _ => lives), funext h.inUse]
    have hfits : ∀ a', ∀ u ∈ Function.update us a (lives ys) a', ∀ l, u.live = some l →
        l.requested ≤ u.size := by
      rw [Function.forall_update_iff us fun _ us =>
        ∀ u ∈ us, ∀ l, u.live = some l → l.requested ≤ u.size]
      refine ⟨fun u hu l hl => ?_, fun a' _ => h.fits a'⟩
      rcases hnew u hu with hu | ⟨hlive, hle⟩
      · exact h.fits a u hu l hl
      · rw [hlive] at hl
        cases hl
        exact (rounded_spec _).2.trans hle
    have hstay : ∀ a', us a' ⊆ Function.update us a (lives ys) a' := by
      rw [Function.forall_update_iff us fun a' bs => us a' ⊆ bs]
      exact ⟨hold, fun _ _ => List.Subset.refl _⟩
    refine ⟨s', by rw [hrun]; rfl, hs'.kept hlives hh' hfits, fun a' u hu x hx hxo _ => ?_⟩
    have hmem := hstay a' hu
    have hu' := (mem_lives.mp (hlives a' ▸ hmem)).1
    refine ⟨hmem, hwords x ?_ (hs'.notMem_countWords hu' hx (hxo owner ho))⟩
    have := hs'.bytes_apart hu' hx a
    rwa [Function.update_self] at this

/-- A request that gives blocks back. -/
theorem Kept.give {p : Blk → Bool} (h : Kept m owners s us) (h' : Sound m owners s' bs')
    (hl : ∀ a, lives (bs' a) = (us a).filter fun u => !p u) (hp : Spared owners us p)
    (hserve : m.serve s r = some (s', some 0))
    (hanswer : m.answer us r = (fun a => (us a).filter fun u => !p u, some 0))
    (hleave : ∀ u x, Leaves u x r → u.live ≠ none → p u = false)
    (hwords : ∀ a, ∀ u ∈ us a, p u = false → ∀ x ∈ u.bytes, (∀ o ∈ owners, x ≠ o + usedOff) →
      s'.word x = s.word x) : Served m owners s us r := by
  have hkeep : ∀ {a u}, u ∈ us a → p u = false → u ∈ (us a).filter fun u => !p u := fun hu hpu =>
    List.mem_filter.mpr ⟨hu, by rw [hpu]; rfl⟩
  rw [Served, hanswer]
  refine ⟨s', hserve, h'.kept hl (fun o ho a hx => ?_) fun a u hu => ?_, fun a u hu x hx hxo hr => ?_⟩
  · obtain ⟨u, hu, hxu⟩ := h.homed o ho a hx
    rw [h.inUse] at hu
    refine ⟨u, hl a ▸ hkeep hu (Bool.eq_false_iff.mpr fun hpu => hp a u hu hpu o ho hxu), hxu⟩
  · exact h.fits a u (List.mem_filter.mp hu).1
  · obtain ⟨-, l, hlive⟩ := mem_lives.mp (h.inUse a ▸ hu)
    have hpu := hleave u x hr (by rw [hlive]; exact Option.some_ne_none l)
    exact ⟨hkeep hu hpu, hwords a u hu hpu x hx hxo⟩

/-- **One request** is answered as the blocks in use say. -/
theorem Kept.serve (h : Kept m owners s us) (hr : Allowed m owners s us r) :
    Served m owners s us r := by
  have hmem : ∀ {a u}, u ∈ us a → u ∈ m.layout us a ∧ ∃ l, u.live = some l := fun hu =>
    mem_lives.mp (h.inUse _ ▸ hu)
  cases r with
  | malloc count owner pc a => exact h.malloc hr
  | free p =>
    obtain ⟨hin, hp⟩ := hr
    have hleave : ∀ u x, Leaves u x (.free p) → u.live ≠ none → (u.addr + 64 == p) = false :=
      fun u x hx _ => beq_eq_false_iff_ne.mpr fun heq => hx.1 (by rw [heq])
    rcases hin with rfl | ⟨a, u, hu, rfl⟩
    · refine h.give h.sound (fun a => ?_) hp rfl rfl hleave fun _ _ _ _ _ _ _ => rfl
      exact (h.inUse a).trans (List.filter_eq_self.mpr fun b _ => rfl).symm
    · obtain ⟨hu', l, hlive⟩ := hmem hu
      obtain ⟨s', bs', hrun, hs', hl, hother, hwords⟩ :=
        h.sound.free hu' hlive (h.sound.arena a).length_lt
      refine h.give hs' (fun a' => ?_) hp (by rw [Machine.serve, hrun]; rfl) rfl hleave
        fun a' v hv _ x hx hxo => ?_
      · by_cases ha : a' = a
        · subst ha
          have hnd : (us a').Nodup :=
            h.inUse a' ▸ (List.Nodup.of_map _ (h.sound.arena a').nodup).filter _
          rw [hl, h.inUse, hnd.erase_eq_filter]
          refine List.filter_congr fun b hb => congrArg not (Bool.eq_iff_iff.mpr ?_)
          rw [beq_iff_eq, beq_iff_eq]
          exact ⟨fun heq => by rw [heq],
            fun heq => (h.sound.addr_inj (hmem hb).1 hu' (Nat.add_right_cancel heq)).2⟩
        · rw [hother a' ha, h.inUse]
          refine (List.filter_eq_self.mpr fun b hb => ?_).symm
          rw [Bool.not_eq_true', beq_eq_false_iff_ne]
          exact fun heq => ha (h.sound.addr_inj (hmem hb).1 hu' (Nat.add_right_cancel heq)).1
      · exact hwords x (h.sound.bytes_apart (hmem hv).1 hx a) (h.sound.notMem_countWords (hmem hv).1 hx
          (hxo _ (h.sound.owned a u hu' l hlive)))
  | reclaim o =>
    obtain ⟨ho, hp⟩ := hr
    obtain ⟨s1, s', bs', hrun1, hrun2, htorn, -⟩ :=
      h.sound.sweeps ho fun a => (h.sound.arena a).length_lt
    have hrun : m.reclaimGuestHeap dataBytes o s = .ok s' := by
      rw [Machine.reclaimGuestHeap, hrun1]
      exact hrun2
    have hl : ∀ a, lives (bs' a) = (us a).filter fun u => !u.ownedBy o := fun a => by
      rw [htorn.lives, others, h.inUse]
    refine h.give htorn.sound hl hp (by rw [Machine.serve, hrun]; rfl) rfl (fun u x hx hu => ?_)
      fun a u hu hpu x hx hxo => htorn.bytes a u ?_ x hx (hxo o ho)
    · obtain ⟨l, hlive⟩ := Option.ne_none_iff_exists'.mp hu
      rw [Bool.eq_false_iff, ne_eq, ownedBy_iff]
      rintro ⟨l', hl', rfl⟩
      exact hx.2.1 l' hl' rfl
    · rw [hl, List.mem_filter, hpu]
      exact ⟨hu, rfl⟩
  | store x v =>
    obtain ⟨hheaders, hcounts⟩ := hr
    have hput : ∀ y, y ≠ x → (s.put x v).word y = s.word y := fun y hy =>
      Function.update_of_ne hy _ _
    refine ⟨s.put x v, rfl, ⟨⟨fun a => ?_, h.sound.merged, h.sound.owned, fun o ho => ?_,
      h.sound.countsApart, h.sound.copiesApart⟩, h.inUse, h.homed, h.fits⟩,
      fun a u hu y hy _ hleave => ?_⟩
    · refine (h.sound.arena a).frame (fun b hb f => hput _ fun heq => hheaders a ?_) rfl
      have := f.offset_lt
      exact ⟨b, hb, by omega, by omega⟩
    · rw [hput _ (hcounts o ho).symm]
      exact h.sound.counts o ho
    · exact ⟨hu, hput y fun heq => hleave.2.2 v (by rw [heq])⟩

/-! ## Runs -/

/-- **A run** is answered as the blocks in use say. -/
theorem Kept.run (h : Kept m owners s us) (hf : Follows m owners s us rs) :
    ∃ s', m.run s rs = some (s', (m.answers us rs).2) ∧ Kept m owners s' (m.answers us rs).1 ∧
      ∀ a, ∀ u ∈ us a, ∀ x ∈ u.bytes, (∀ o ∈ owners, x ≠ o + usedOff) → (∀ r ∈ rs, Leaves u x r) →
        u ∈ (m.answers us rs).1 a ∧ s'.word x = s.word x := by
  induction rs generalizing s us with
  | nil => exact ⟨s, rfl, h, fun a u hu x _ _ _ => ⟨hu, rfl⟩⟩
  | cons r rs ih =>
    obtain ⟨hr, hf⟩ := hf
    obtain ⟨s1, hrun1, h1, hword1⟩ := h.serve hr
    obtain ⟨s2, hrun2, h2, hword2⟩ := ih h1 (hf s1 _ hrun1)
    refine ⟨s2, ?_, h2, fun a u hu x hx hxo hleave => ?_⟩
    · rw [Machine.run, hrun1]
      show (m.run s1 rs).bind _ = _
      rw [hrun2]
      rfl
    · obtain ⟨hr, hrs⟩ := List.forall_mem_cons.mp hleave
      obtain ⟨hu1, hx1⟩ := hword1 a u hu x hx hxo hr
      obtain ⟨hu2, hx2⟩ := hword2 a u hu1 x hx hxo hrs
      exact ⟨hu2, hx2.trans hx1⟩

/-! ## From the start -/

theorem Machine.layout_nil (m : Machine) (a : Fin 2) :
    m.layout (fun _ => []) a = [⟨m.arenas a, arenaBytes a - 64, none⟩] := by
  have hpos := (arenaBytes_bounds a).1
  rw [Machine.layout, fill, gap, if_neg (by omega), Nat.add_sub_cancel_left]

theorem Arena.init (m : Machine) (s : State) (a : Fin 2) :
    Arena m (m.arenaInit a s) a (m.layout (fun _ => []) a) ∧
      Keeps (headerWords (m.layout (fun _ => []) a)) a s (m.arenaInit a s) := by
  rw [m.layout_nil]
  have hap : Apart [m.arenas a] := by
    intro x hx y hy hne
    rw [List.mem_singleton.mp hx, List.mem_singleton.mp hy] at hne
    exact absurd rfl hne
  have hmem : m.arenas a ∈ [m.arenas a] := List.mem_cons_self
  have hget := fun f =>
    (setBlock_get (s := s) 0 0 (arenaBytes a - 64) hap hmem hmem f).trans (if_pos rfl)
  have hbytes := arenaBytes_bounds a
  have hkeeps : Keeps (within [m.arenas a]) a s
      (s.setBlock (m.arenas a) (arenaBytes a - 64) 0 0) := setBlock_keeps hmem
  refine ⟨⟨⟨rfl, ?_⟩, fun b hb => ?_, fun b hb => ?_, ?_, ?_, Function.update_self _ _ _⟩,
    within_addrs [⟨m.arenas a, arenaBytes a - 64, none⟩] ▸ ⟨hkeeps.words, fun a' ha => ?_⟩⟩
  · show m.arenas a + 64 + (arenaBytes a - 64) = m.arenas a + arenaBytes a
    omega
  · rw [List.mem_singleton.mp hb]
    dsimp only
    omega
  · rw [List.mem_singleton.mp hb]
    exact ⟨hget .magic, hget .size, fun _ => ⟨hget .used, hget .requested⟩, (fun l hl => by cases hl)⟩
  · exact ⟨hget .prev, hget .next, trivial⟩
  · exact ⟨hget .owner, hget .pad, trivial⟩
  · exact (Function.update_of_ne ha _ _).trans (hkeeps.heads a' ha)

theorem Kept.init (hcounts : ∀ o ∈ owners, s.word (o + usedOff) = 0)
    (hrecords : ∀ o ∈ owners, ∀ a, o + usedOff ∉ Set.Ico (m.arenas a) (m.arenas a + arenaBytes a))
    (hcopies : ∀ f ∈ m.guestFibers, ∀ o ∈ owners, f.heapUsed ≠ o + usedOff) :
    Kept m owners (m.arenaInit 1 (m.arenaInit 0 s)) fun _ => [] := by
  obtain ⟨h0, hk0⟩ := Arena.init m s 0
  obtain ⟨h1, hk1⟩ := Arena.init m (m.arenaInit 0 s) 1
  have hfree : ∀ a, ∀ b ∈ m.layout (fun _ => []) a, b.live = none := fun a b hb => by
    rw [m.layout_nil] at hb
    rw [List.mem_singleton.mp hb]
  have hlives : ∀ a, lives (m.layout (fun _ => []) a) = [] := fun a => by
    rw [m.layout_nil]
    rfl
  have harena : ∀ a, Arena m (m.arenaInit 1 (m.arenaInit 0 s)) a (m.layout (fun _ => []) a) := by
    rw [Fin.forall_fin_two]
    exact ⟨h0.beside h1 (by decide) hk1, h1⟩
  have hapart : ∀ o ∈ owners, ∀ a, o + usedOff ∉ headerWords (m.layout (fun _ => []) a) :=
    fun o ho a hx => hrecords o ho a ((harena a).headerWords_within hx)
  refine ⟨⟨harena, fun a => ?_, fun a b hb l hl => ?_, fun o ho => ?_, hapart, hcopies⟩, hlives,
    fun o ho a hx => absurd hx (hrecords o ho a), fun a u hu => absurd hu List.not_mem_nil⟩
  · rw [m.layout_nil]
    exact List.IsChain.singleton _
  · rw [hfree a b hb] at hl
    cases hl
  · rw [hk1.words _ (hapart o ho 1), hk0.words _ (hapart o ho 0), hcounts o ho, m.layout_nil,
      m.layout_nil]
    rfl

/-- **The heap is what its blocks in use say**: from `arena_init` on, the functions answer every run
as `answers` does, their walks all come to an end, and what the heap keeps is kept. -/
theorem heap_refines (hcounts : ∀ o ∈ owners, s.word (o + usedOff) = 0)
    (hrecords : ∀ o ∈ owners, ∀ a, o + usedOff ∉ Set.Ico (m.arenas a) (m.arenas a + arenaBytes a))
    (hcopies : ∀ f ∈ m.guestFibers, ∀ o ∈ owners, f.heapUsed ≠ o + usedOff)
    (hf : Follows m owners (m.arenaInit 1 (m.arenaInit 0 s)) (fun _ => []) rs) :
    ∃ s', m.run (m.arenaInit 1 (m.arenaInit 0 s)) rs = some (s', (m.answers (fun _ => []) rs).2) ∧
      Kept m owners s' (m.answers (fun _ => []) rs).1 := by
  obtain ⟨s', hrun, hkept, -⟩ := (Kept.init hcounts hrecords hcopies).run hf
  exact ⟨s', hrun, hkept⟩

/-- A block of 1000 bytes taken and given back. -/
def takenAndGiven : List Request := [.malloc 1000 0x1000 7 0, .free 0x10000040]

theorem heap_refines_takenAndGiven : ∃ s', oneTask.run
    (oneTask.arenaInit 1 (oneTask.arenaInit 0 ⟨fun _ => 0, fun _ => 0⟩)) takenAndGiven =
      some (s', [some 0x10000040, some 0]) := by
  have hfollows : Follows oneTask {0x1000}
      (oneTask.arenaInit 1 (oneTask.arenaInit 0 ⟨fun _ => 0, fun _ => 0⟩)) (fun _ => [])
      takenAndGiven := by
    refine ⟨⟨rfl, rfl⟩, fun s' p _ => ⟨⟨Or.inr ⟨0, _, List.mem_singleton.mpr rfl, rfl⟩, ?_⟩,
      fun _ _ _ => trivial⟩⟩
    rintro a u hu - o rfl hin
    have hlow : ∀ a, ∀ u ∈ (oneTask.answer (fun _ => []) (.malloc 1000 0x1000 7 0)).1 a,
        0x1000 + usedOff < u.addr := by decide
    exact absurd hin.1 (by have := hlow a u hu; omega)
  obtain ⟨s', hrun, -⟩ := heap_refines (m := oneTask) (s := ⟨fun _ => 0, fun _ => 0⟩)
    (fun _ _ => rfl) (by
      rintro o rfl
      decide) (by
      rintro f hf o rfl
      exact oneBlock_sound.copiesApart f hf _ rfl) hfollows
  exact ⟨s', hrun⟩

/-- **What clients get**: after every run the blocks in use are aligned, inside an arena, as large as
asked for and apart from each other, and the record of each owner counts its own. -/
theorem blocks_of_run (h : Kept m owners s us) (hf : Follows m owners s us rs) :
    ∃ s' answers, m.run s rs = some (s', answers) ∧
      (∀ a, ∀ u ∈ (m.answers us rs).1 a, (u.addr + 64) % 16 = 0 ∧
        u.bytes ⊆ Set.Ico (m.arenas a) (m.arenas a + arenaBytes a) ∧
        ∀ l, u.live = some l → l.requested ≤ u.size) ∧
      (∀ a, ((m.answers us rs).1 a).Pairwise fun u v => Disjoint u.bytes v.bytes) ∧
      ∀ o ∈ owners, s'.word (o + usedOff) =
        usedBy o ((m.answers us rs).1 0) + usedBy o ((m.answers us rs).1 1) := by
  obtain ⟨s', hrun, hk, -⟩ := h.run hf
  refine ⟨s', _, hrun, fun a u hu => ?_, fun a => ?_, fun o ho => ?_⟩
  · have hmem := (mem_lives.mp (hk.inUse a ▸ hu)).1
    have hin := (hk.sound.arena a).tiles.within.2 u hmem
    have haligned := (hk.sound.arena a).aligned hmem
    refine ⟨by omega, fun x hx => ⟨?_, hx.2.trans_le hin.2⟩, hk.fits a u hu⟩
    exact hin.1.trans ((Nat.le_add_right _ _).trans hx.1)
  · rw [← hk.inUse a]
    refine ((hk.sound.arena a).tiles.sorted.filter _).imp fun {u v} huv => ?_
    exact Set.disjoint_left.mpr fun x hx hx' => by
      have := hx.2
      have := hx'.1
      omega
  · rw [hk.sound.counts o ho, ← usedBy_lives, ← usedBy_lives o (m.layout _ 1), hk.inUse, hk.inUse]

theorem oneBlock_kept : Kept oneTask {0x1000} oneBlockState fun a => lives (oneBlock a) := by
  refine oneBlock_sound.kept (fun _ => rfl) (fun o ho a hx => ?_) (by decide)
  obtain rfl : o = 0x1000 := ho
  have hlow : ∀ a, 0x1000 + usedOff < oneTask.arenas a := by decide
  exact absurd hx.1 (Nat.not_le.mpr (hlow a))

theorem oneBlock_follows : Follows oneTask {0x1000} oneBlockState (fun a => lives (oneBlock a))
    [.malloc 16 0x1000 0 0] := ⟨⟨rfl, rfl⟩, fun _ _ _ => trivial⟩

theorem blocks_of_run_oneBlock : ∃ s' answers,
    oneTask.run oneBlockState [.malloc 16 0x1000 0 0] = some (s', answers) := by
  obtain ⟨s', answers, hrun, -⟩ := blocks_of_run oneBlock_kept oneBlock_follows
  exact ⟨s', answers, hrun⟩

/-- **What is stored in a block stays**, and the block stays in use, until it is given back or the
word is stored again, whatever else clients do. -/
theorem stored_word_stays (h : Kept m owners s us) (hf : Follows m owners s us rs)
    (hu : u ∈ us a) (hx : x ∈ u.bytes) (hxo : ∀ o ∈ owners, x ≠ o + usedOff)
    (hleave : ∀ r ∈ rs, Leaves u x r) :
    ∃ s' answers, m.run s rs = some (s', answers) ∧ u ∈ (m.answers us rs).1 a ∧
      s'.word x = s.word x := by
  obtain ⟨s', hrun, -, hword⟩ := h.run hf
  exact ⟨s', _, hrun, hword a u hu x hx hxo hleave⟩

theorem stored_word_stays_oneBlock : ∃ s' answers, oneTask.run oneBlockState [.malloc 16 0x1000 0 0] =
    some (s', answers) ∧ s'.word 0x10000040 = oneBlockState.word 0x10000040 := by
  obtain ⟨s', answers, hrun, -, hword⟩ := stored_word_stays (a := 0) (x := 0x10000040) oneBlock_kept
    oneBlock_follows List.mem_cons_self ⟨by decide, by decide⟩ (by rintro o rfl; decide) (fun r hr => by
      rw [List.mem_singleton.mp hr]
      exact ⟨(fun h => by cases h), fun _ _ => (fun h => by cases h), fun _ => (fun h => by cases h)⟩)
  exact ⟨s', answers, hrun, hword⟩

/-- **What is given back is whole again**: after a run that leaves no block in use each arena is one
free block, which begins its free list, and every record counts nothing. -/
theorem all_given_back (h : Kept m owners s us) (hf : Follows m owners s us rs)
    (hnone : (m.answers us rs).1 = fun _ => []) :
    ∃ s' answers, m.run s rs = some (s', answers) ∧
      (∀ a, Arena m s' a [⟨m.arenas a, arenaBytes a - 64, none⟩]) ∧
      ∀ o ∈ owners, s'.word (o + usedOff) = 0 := by
  obtain ⟨s', hrun, hk, -⟩ := h.run hf
  rw [hnone] at hk
  refine ⟨s', _, hrun, fun a => m.layout_nil a ▸ hk.sound.arena a, fun o ho => ?_⟩
  rw [hk.sound.counts o ho, m.layout_nil, m.layout_nil]
  rfl

theorem all_given_back_oneBlock : ∃ s' answers, oneTask.run oneBlockState [.reclaim 0x1000] =
    some (s', answers) ∧ ∀ a, Arena oneTask s' a [⟨oneTask.arenas a, arenaBytes a - 64, none⟩] := by
  have hfollows : Follows oneTask {0x1000} oneBlockState (fun a => lives (oneBlock a))
      [.reclaim 0x1000] := by
    refine ⟨⟨rfl, fun a u hu _ o ho hin => ?_⟩, fun _ _ _ => trivial⟩
    have hlow : ∀ a, ∀ u ∈ lives (oneBlock a), 0x1000 + usedOff < u.addr := by decide
    rw [Set.mem_singleton_iff.mp ho] at hin
    exact absurd hin.1 (by have := hlow a u hu; omega)
  obtain ⟨s', answers, hrun, harena, -⟩ := all_given_back oneBlock_kept hfollows (funext (by decide))
  exact ⟨s', answers, hrun, harena⟩

end ZealBringup.Heap
