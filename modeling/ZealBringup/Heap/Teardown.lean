import Mathlib
import ZealBringup.Heap.Release

/-!
# Owners torn down

`Sound` is what the heap keeps: both arenas agree with their blocks, no two free blocks are
neighbours, and every control record counts the bytes that its owner has in use.  A block given back
keeps it, so a sweep over an arena can go on behind the block that is left when one of the owner's
blocks has been merged with its neighbours.

* `Sound.release` — one block given back.
* `Sound.sweep` — the loop over the blocks of an arena.
* `owner_torn_down` — `reclaim_guest_heap` and `HeapCtrlDel`.
-/

namespace ZealBringup.Heap

open Links

/-- The bytes that an owner has in use. -/
def Blk.ownedBy (o : ℕ) (b : Blk) : Bool := b.live.any fun l => l.owner == o

/-- What the blocks of an owner add up to. -/
def usedBy (o : ℕ) (bs : List Blk) : ℕ := ((bs.filter (Blk.ownedBy o)).map Blk.size).sum

/-- **What the heap keeps.**  `owners` are the control records in use. -/
structure Sound (m : Machine) (owners : Set ℕ) (s : State) (bs : Fin 2 → List Blk) : Prop where
  arena : ∀ a, Arena m s a (bs a)
  merged : ∀ a, Merged (bs a)
  owned : ∀ a, ∀ b ∈ bs a, ∀ l, b.live = some l → l.owner ∈ owners
  counts : ∀ o ∈ owners, s.word (o + usedOff) = usedBy o (bs 0) + usedBy o (bs 1)
  countsApart : ∀ o ∈ owners, ∀ a, o + usedOff ∉ headerWords (bs a)
  copiesApart : ∀ f ∈ m.guestFibers, ∀ o ∈ owners, f.heapUsed ≠ o + usedOff

/-- The words that the count of an owner is kept in. -/
def countWords (m : Machine) (o : ℕ) : Set ℕ :=
  {x | x = o + usedOff ∨ ∃ f, m.fiberOf o = some f ∧ x = f.heapUsed}

variable {m : Machine} {owners : Set ℕ} {s s' : State} {bs : Fin 2 → List Blk} {a : Fin 2}
  {pre post : List Blk} {u : Blk} {l : Live} {o limit : ℕ}

/-! ## Counts -/

theorem usedBy_append (o : ℕ) (xs ys : List Blk) : usedBy o (xs ++ ys) = usedBy o xs + usedBy o ys := by
  rw [usedBy, List.filter_append, List.map_append, List.sum_append]
  rfl

theorem usedBy_cons (o : ℕ) (b : Blk) (xs : List Blk) :
    usedBy o (b :: xs) = (if b.ownedBy o then b.size else 0) + usedBy o xs := by
  rw [usedBy, List.filter_cons]
  split
  · rw [List.map_cons, List.sum_cons]
    rfl
  · rw [Nat.zero_add]
    rfl

variable {b : Blk}

theorem ownedBy_iff : b.ownedBy o = true ↔ ∃ l, b.live = some l ∧ l.owner = o := by
  rw [Blk.ownedBy]
  cases b.live with
  | none => exact iff_of_false Bool.false_ne_true nofun
  | some l =>
    rw [Option.any_some, beq_iff_eq]
    exact ⟨fun h => ⟨l, rfl, h⟩, fun ⟨_, h1, h2⟩ => by cases h1; exact h2⟩

/-- Only the blocks in use are counted. -/
theorem usedBy_lives (o : ℕ) (xs : List Blk) : usedBy o (lives xs) = usedBy o xs := by
  rw [usedBy, usedBy, lives, List.filter_filter]
  congr 2
  refine List.filter_congr fun b _ => ?_
  rw [Bool.and_eq_left_iff_imp]
  intro h
  obtain ⟨l, hl, -⟩ := ownedBy_iff.mp h
  rw [hl]
  rfl

variable {xs : List Blk}

theorem Tiles.usedBy_le {i j : ℕ} (h : Tiles i xs j) (o : ℕ) : i + usedBy o xs ≤ j := by
  induction xs generalizing i with
  | nil => exact Nat.le_of_eq h
  | cons b xs ih =>
    obtain ⟨rfl, h2⟩ := h
    have hle := ih h2
    rw [Blk.fin] at hle
    rw [usedBy_cons]
    split
    · omega
    · omega

theorem arenas_usedBy_lt (h : ∀ a, Arena m s a (bs a)) (o : ℕ) :
    usedBy o (bs 0) + usedBy o (bs 1) < 2 ^ 64 := by
  have h0 := (h 0).tiles.usedBy_le o
  have h1 := (h 1).tiles.usedBy_le o
  have hb0 : arenaBytes 0 = dataBytes := rfl
  have hb1 : arenaBytes 1 = codeBytes := rfl
  rw [hb0, dataBytes] at h0
  rw [hb1, codeBytes] at h1
  omega

theorem Sound.usedBy_lt (h : Sound m owners s bs) (o : ℕ) :
    usedBy o (bs 0) + usedBy o (bs 1) < 2 ^ 64 :=
  arenas_usedBy_lt h.arena o

theorem mem_of_fiberOf {f : Fiber} (h : m.fiberOf o = some f) : f ∈ m.guestFibers := by
  rw [Machine.fiberOf] at h
  split at h
  · exact List.mem_of_find?_eq_some h
  · cases h

/-- The count of the owner goes down, and its copy with it. -/
theorem subUsed_eq {n : ℕ} (hn : n ≤ s.word (o + usedOff)) (hlt : s.word (o + usedOff) < 2 ^ 64)
    (hcopy : ∀ f ∈ m.guestFibers, f.heapUsed ≠ o + usedOff) :
    (m.subUsed o n s).word (o + usedOff) = s.word (o + usedOff) - n ∧
      (∀ x ∉ countWords m o, (m.subUsed o n s).word x = s.word x) ∧
      (m.subUsed o n s).freeHeads = s.freeHeads := by
  have harith : (s.word (o + usedOff) + (2 ^ 64 - n % 2 ^ 64)) % 2 ^ 64 = s.word (o + usedOff) - n := by
    rw [Nat.mod_eq_of_lt (hn.trans_lt hlt)]
    omega
  rw [Machine.subUsed, Machine.syncGuestHeap, harith]
  cases hf : m.fiberOf o with
  | none =>
    refine ⟨Function.update_self _ _ _, fun x hx => Function.update_of_ne (fun h => hx (Or.inl h)) _ _,
      rfl⟩
  | some f =>
    refine ⟨?_, fun x hx => ?_, rfl⟩
    · exact (Function.update_of_ne (hcopy f (mem_of_fiberOf hf)).symm _ _).trans (Function.update_self _ _ _)
    · refine (Function.update_of_ne (fun h => hx (Or.inr ⟨f, hf, h⟩)) _ _).trans ?_
      exact Function.update_of_ne (fun h => hx (Or.inl h)) _ _

/-! ## Where things are -/

theorem Arena.headerWords_within (h : Arena m s a xs) :
    headerWords xs ⊆ Set.Ico (m.arenas a) (m.arenas a + arenaBytes a) := by
  rintro x ⟨b, hb, h1, h2⟩
  have hin := h.tiles.within.2 b hb
  rw [Blk.fin] at hin
  exact ⟨hin.1.trans h1, by omega⟩

theorem Machine.arenas_disjoint (m : Machine) {a a' : Fin 2} (hne : a ≠ a') :
    Disjoint (Set.Ico (m.arenas a) (m.arenas a + arenaBytes a))
      (Set.Ico (m.arenas a') (m.arenas a' + arenaBytes a')) := by
  have h01 : Disjoint (Set.Ico (m.arenas 0) (m.arenas 0 + arenaBytes 0))
      (Set.Ico (m.arenas 1) (m.arenas 1 + arenaBytes 1)) := by
    rw [Set.disjoint_left]
    rintro x ⟨h1, h2⟩ ⟨h3, h4⟩
    exact m.apart.elim (fun h => absurd (h2.trans_le h) (Nat.not_lt.mpr h3))
      fun h => absurd (h4.trans_le h) (Nat.not_lt.mpr h1)
  have hcases : ∀ a a' : Fin 2, a ≠ a' → a = 0 ∧ a' = 1 ∨ a = 1 ∧ a' = 0 := by decide
  rcases hcases a a' hne with ⟨rfl, rfl⟩ | ⟨rfl, rfl⟩
  · exact h01
  · exact h01.symm

theorem Machine.arenaOf_eq (m : Machine) {x : ℕ}
    (hx : x ∈ Set.Ico (m.arenas a) (m.arenas a + arenaBytes a)) : m.arenaOf x = a := by
  rw [Machine.arenaOf]
  match a with
  | 0 =>
    refine if_neg fun h => ?_
    exact Set.disjoint_left.mp (@Machine.arenas_disjoint m 0 1 (by decide)) hx ⟨h.1, h.2⟩
  | 1 => exact if_pos ⟨hx.1, hx.2⟩

theorem Machine.heapUsed_outside (m : Machine) {f : Fiber} (hf : f ∈ m.guestFibers) (a : Fin 2) :
    f.heapUsed ∉ Set.Ico (m.arenas a) (m.arenas a + arenaBytes a) := by
  have hap := m.fibers_apart f hf
  rintro ⟨h1, h2⟩
  match a with
  | 0 => exact hap.1.elim (fun h => absurd h1 (Nat.not_le.mpr h)) fun h => absurd h2 (Nat.not_lt.mpr h)
  | 1 => exact hap.2.elim (fun h => absurd h1 (Nat.not_le.mpr h)) fun h => absurd h2 (Nat.not_lt.mpr h)

/-- No header is where a count is kept. -/
theorem Sound.countWords_apart (h : Sound m owners s bs) (ho : o ∈ owners) (a : Fin 2) :
    Disjoint (headerWords (bs a)) (countWords m o) := by
  rw [Set.disjoint_left]
  rintro x hx (rfl | ⟨f, hf, rfl⟩)
  · exact h.countsApart o ho a hx
  · exact m.heapUsed_outside (mem_of_fiberOf hf) a ((h.arena a).headerWords_within hx)

theorem headerWords_subset {ys : List Blk} (h : addrs xs ⊆ addrs ys) :
    headerWords xs ⊆ headerWords ys := by
  rw [← within_addrs, ← within_addrs]
  rintro x ⟨b, hb, hx⟩
  exact ⟨b, h hb, hx⟩

/-- Nothing in one arena changes the other. -/
theorem Arena.other {ys : List Blk} {a' : Fin 2} (h : Arena m s a' ys) (hx : Arena m s a xs)
    (hne : a' ≠ a) (hk : Keeps (headerWords xs) a s s') : Arena m s' a' ys := by
  refine h.frame (fun b hb f => get_keeps hk ?_) (hk.heads a' hne)
  refine (m.arenas_disjoint hne).mono (fun x hx => ?_) hx.headerWords_within
  exact h.headerWords_within ⟨b, hb, hx⟩

/-! ## One block -/

theorem usedBy_update (o : ℕ) (bs : Fin 2 → List Blk) (a : Fin 2) (xs : List Blk) :
    usedBy o (Function.update bs a xs 0) + usedBy o (Function.update bs a xs 1) + usedBy o (bs a) =
      usedBy o (bs 0) + usedBy o (bs 1) + usedBy o xs := by
  have h01 : (1 : Fin 2) ≠ 0 := by decide
  have hcases : ∀ a : Fin 2, a = 0 ∨ a = 1 := by decide
  rcases hcases a with rfl | rfl
  · rw [Function.update_self, Function.update_of_ne h01]
    omega
  · rw [Function.update_self, Function.update_of_ne h01.symm]
    omega

theorem Sound.subUsed (h : Sound m owners s bs) (hbs : bs a = pre ++ u :: post) (hu : u.live = some l) :
    (m.subUsed l.owner u.size s).word (l.owner + usedOff) = s.word (l.owner + usedOff) - u.size ∧
      u.size ≤ s.word (l.owner + usedOff) ∧
      (∀ x ∉ countWords m l.owner, (m.subUsed l.owner u.size s).word x = s.word x) ∧
      ∀ a, Arena m (m.subUsed l.owner u.size s) a (bs a) := by
  have hmem : u ∈ bs a := hbs ▸ List.mem_append_right _ List.mem_cons_self
  have ho := h.owned a u hmem l hu
  have hle : u.size ≤ s.word (l.owner + usedOff) := by
    have hua : u.size ≤ usedBy l.owner (bs a) := by
      rw [hbs, usedBy_append, usedBy_cons, if_pos (ownedBy_iff.mpr ⟨l, hu, rfl⟩)]
      omega
    rw [h.counts _ ho]
    have hcases : ∀ a : Fin 2, a = 0 ∨ a = 1 := by decide
    rcases hcases a with rfl | rfl
    · exact hua.trans (Nat.le_add_right _ _)
    · exact hua.trans (Nat.le_add_left _ _)
  have hlt : s.word (l.owner + usedOff) < 2 ^ 64 := by
    rw [h.counts _ ho]
    exact h.usedBy_lt _
  obtain ⟨h1, h2, h3⟩ := subUsed_eq hle hlt fun f hf => h.copiesApart f hf _ ho
  refine ⟨h1, hle, h2, fun a' => (h.arena a').frame (fun b hb f => h2 _ ?_) (congrFun h3 a')⟩
  refine Set.disjoint_left.mp (h.countWords_apart ho a') ⟨b, hb, Nat.le_add_right _ _, ?_⟩
  have := f.offset_lt
  omega

/-- **One block given back.**  It is left to a free block, and what was in use before and behind it
still is. -/
theorem Sound.release (h : Sound m owners s bs) (hbs : bs a = pre ++ u :: post)
    (hu : u.live = some l) (hlim : (bs a).length < limit) :
    ∃ s' w pre' post', m.release limit u.addr s = .ok (s', w.addr) ∧
      Sound m owners s' (Function.update bs a (pre' ++ w :: post')) ∧ w.live = none ∧
      pre'.length ≤ pre.length ∧ post'.length ≤ post.length ∧
      lives pre' = lives pre ∧ lives post' = lives post ∧
      headerWords (pre' ++ w :: post') ⊆ headerWords (bs a) ∧
      ∀ x ∉ headerWords (bs a), x ∉ countWords m l.owner → s'.word x = s.word x := by
  have hmem : u ∈ bs a := hbs ▸ List.mem_append_right _ List.mem_cons_self
  have ho := h.owned a u hmem l hu
  have hhu := (h.arena a).headers u hmem
  obtain ⟨hcount, hle, hwords, hA⟩ := h.subUsed hbs hu
  set s0 := m.subUsed l.owner u.size s with hs0
  have hmerged := h.merged a
  rw [hbs, Merged, List.isChain_append] at hmerged
  -- the three steps
  have hlim' : (frees pre).length < limit := by
    have h1 := (frees_sublist pre).length_le
    have h2 : (addrs pre).length = pre.length := List.length_map _
    have h3 : (bs a).length = pre.length + (post.length + 1) := by
      rw [hbs, List.length_append, List.length_cons]
    omega
  obtain ⟨s1, hins, hA1, hk1⟩ := (hbs ▸ hA a : Arena m s0 a (pre ++ u :: post)).freed hu hlim'
  obtain ⟨w1, post', hw1, hw1n, hm1, hlen1, hlives1, hset1⟩ := hA1.absorbNext rfl
    hmerged.2.1.tail
  obtain ⟨w, pre', hr, hwn, hm2, hlen2, hlives2, hset2⟩ := hset1.arena.absorbPrev hw1n hmerged.1 hm1
  set s' := (absorbPrev a w1.addr (absorbNext a u.freed.addr s1)).1 with hs'
  have hsub0 : headerWords (pre ++ u.freed :: post) ⊆ headerWords (bs a) := by
    rw [hbs]
    exact headerWords_subset (by rw [addrs_append, addrs_append]; exact List.Subset.refl _)
  have hsub1 := (headerWords_subset hset1.fewer.subset).trans hsub0
  have hsub2 := (headerWords_subset hset2.fewer.subset).trans hsub1
  have hk : Keeps (headerWords (bs a)) a s0 s' :=
    ((hbs ▸ hk1).trans (hset1.keeps.mono hsub0)).trans (hset2.keeps.mono hsub1)
  have hrun : m.release limit u.addr s = .ok (s', w.addr) := by
    have haddr : m.arenaOf u.addr = a :=
      m.arenaOf_eq ((h.arena a).headerWords_within ⟨u, hmem, le_rfl, Nat.lt_add_of_pos_right (by decide)⟩)
    rw [Machine.release, haddr, Machine.markFree, (hhu.live l hu).2.2.1, hhu.size, ← hs0, hins, ← hr,
      hs', hw1]
    rfl
  have hlives : lives (pre' ++ w :: post') = lives pre ++ lives post := by
    rw [lives_append, lives_cons_none hwn, hlives1, hlives2]
  have hused : ∀ o', usedBy o' (bs a) =
      (if u.ownedBy o' then u.size else 0) + usedBy o' (pre' ++ w :: post') := by
    intro o'
    rw [← usedBy_lives o' (pre' ++ w :: post'), hlives, ← lives_append, usedBy_lives, hbs,
      usedBy_append, usedBy_append, usedBy_cons]
    omega
  refine ⟨s', w, pre', post', hrun, ⟨?_, ?_, ?_, ?_, ?_, h.copiesApart⟩, hwn, hlen2, hlen1, hlives2,
    hlives1, hsub2, ?_⟩
  case refine_1 =>
    intro a'
    by_cases ha : a' = a
    · subst ha
      rw [Function.update_self]
      exact hset2.arena
    · rw [Function.update_of_ne ha]
      exact (hA a').other (hA a) ha hk
  case refine_2 =>
    intro a'
    by_cases ha : a' = a
    · subst ha
      rw [Function.update_self]
      exact hm2
    · rw [Function.update_of_ne ha]
      exact h.merged a'
  case refine_3 =>
    intro a' b hb l' hl'
    by_cases ha : a' = a
    · subst ha
      rw [Function.update_self] at hb
      have hbl : b ∈ lives (pre' ++ w :: post') := mem_lives.mpr ⟨hb, l', hl'⟩
      rw [hlives, ← lives_append, mem_lives, List.mem_append] at hbl
      refine h.owned a' b ?_ l' hl'
      rw [hbs]
      exact List.mem_append.mpr (hbl.1.imp id (List.mem_cons_of_mem _))
    · rw [Function.update_of_ne ha] at hb
      exact h.owned a' b hb l' hl'
  case refine_4 =>
    intro o' ho'
    have hcountsum := usedBy_update o' bs a (pre' ++ w :: post')
    have hbefore := h.counts o' ho'
    rw [hk.words _ (h.countsApart o' ho' a)]
    rw [hused o'] at hcountsum
    by_cases heq : o' = l.owner
    · subst heq
      rw [if_pos (ownedBy_iff.mpr ⟨l, hu, rfl⟩)] at hcountsum
      rw [hcount]
      omega
    · have hnot : ¬ u.ownedBy o' := fun hown => by
        obtain ⟨l', hl', hlo⟩ := ownedBy_iff.mp hown
        rw [hu] at hl'
        cases hl'
        exact heq hlo.symm
      rw [if_neg hnot] at hcountsum
      rw [hwords, hbefore]
      · omega
      · rintro (hx | ⟨f, hf, hx⟩)
        · exact heq (Nat.add_right_cancel hx)
        · exact h.copiesApart f (mem_of_fiberOf hf) o' ho' hx.symm
  case refine_5 =>
    intro o' ho' a'
    by_cases ha : a' = a
    · subst ha
      rw [Function.update_self]
      exact fun hx => h.countsApart o' ho' a' (hsub2 hx)
    · rw [Function.update_of_ne ha]
      exact h.countsApart o' ho' a'
  case refine_6 =>
    intro x hx hxc
    rw [hk.words x hx, hwords x hxc]

/-! ## The sweep -/

/-- The loop looks at the owner of a block in use. -/
theorem Header.test (h : Header s u) :
    (s.get u.addr .used ≠ 0 ∧ s.get u.addr .owner = o) ↔ u.ownedBy o = true := by
  rw [ownedBy_iff]
  cases hl : u.live with
  | none => exact iff_of_false (fun hh => hh.1 (h.free hl).1) nofun
  | some l =>
    obtain ⟨h1, -, h3, -⟩ := h.live l hl
    rw [h1, h3]
    exact ⟨fun hh => ⟨l, rfl, hh.2⟩, fun ⟨_, e, hh⟩ => ⟨Nat.one_ne_zero, by cases e; exact hh⟩⟩

/-- The blocks in use that do not belong to an owner. -/
def others (o : ℕ) (bs : List Blk) : List Blk := (lives bs).filter fun b => !b.ownedBy o

/-- **The loop over the blocks of an arena**, by induction on the rounds it may take: what is before
the block it has come to holds nothing of the owner any more. -/
theorem Sound.sweep {rounds : ℕ} (h : Sound m owners s bs) (hbs : bs a = pre ++ post)
    (hpre : ∀ b ∈ pre, b.ownedBy o = false) (hrounds : post.length < rounds)
    (hlim : (bs a).length < limit) :
    ∃ s' xs, m.sweep limit o rounds ((addrs post).headD 0) s = .ok s' ∧
      Sound m owners s' (Function.update bs a xs) ∧ lives xs = others o (bs a) ∧
      headerWords xs ⊆ headerWords (bs a) ∧ xs.length ≤ (bs a).length ∧
      ∀ x ∉ headerWords (bs a), x ∉ countWords m o → s'.word x = s.word x := by
  induction rounds generalizing s bs pre post with
  | zero => exact absurd hrounds (Nat.not_lt_zero _)
  | succ rounds ih =>
    cases post with
    | nil =>
      refine ⟨s, bs a, if_pos rfl, ?_, ?_, Set.Subset.refl _, le_rfl, fun x _ _ => rfl⟩
      · rw [Function.update_eq_self]
        exact h
      · refine (List.filter_eq_self.mpr fun b hb => ?_).symm
        rw [hbs, List.append_nil, mem_lives] at hb
        rw [hpre b hb.1]
        rfl
    | cons u post =>
      have hmem : u ∈ bs a := hbs ▸ List.mem_append_right _ List.mem_cons_self
      have hu0 : u.addr ≠ 0 := fun h0 => (h.arena a).pos (h0 ▸ mem_addrs.mpr ⟨u, hmem, rfl⟩)
      have htest := ((h.arena a).headers u hmem).test (o := o)
      show ∃ s' xs, m.sweep limit o (rounds + 1) u.addr s = .ok s' ∧ _
      cases hown : u.ownedBy o with
      | true =>
        obtain ⟨l, hl, rfl⟩ := ownedBy_iff.mp hown
        obtain ⟨s1, w, pre', post', hrel, hs1, hwn, hlen1, hlen2, hlives1, hlives2, hsub, hwords⟩ :=
          h.release hbs hl hlim
        have hnext : s1.get w.addr .next = (addrs post').headD 0 := by
          have harena := hs1.arena a
          rw [Function.update_self] at harena
          exact harena.next_eq
        have hlen : (pre' ++ w :: post').length ≤ (bs a).length := by
          rw [hbs, List.length_append, List.length_append, List.length_cons, List.length_cons]
          omega
        have hsplit : Function.update bs a (pre' ++ w :: post') a = (pre' ++ [w]) ++ post' := by
          rw [Function.update_self, ← List.append_cons]
        obtain ⟨s', xs, hrun, hs', hxs, hsub', hlen', hwords'⟩ := ih hs1 hsplit
          (by
            intro b hb
            rw [Bool.eq_false_iff]
            intro hbo
            obtain ⟨l', hl', -⟩ := ownedBy_iff.mp hbo
            rcases List.mem_append.mp hb with hb | hb
            · have hbl : b ∈ lives pre' := mem_lives.mpr ⟨hb, l', hl'⟩
              rw [hlives1, mem_lives] at hbl
              rw [hpre b hbl.1] at hbo
              cases hbo
            · rw [List.mem_singleton.mp hb, hwn] at hl'
              cases hl')
          (by rw [List.length_cons] at hrounds; omega) (by rw [Function.update_self]; omega)
        rw [Function.update_self] at hxs hsub' hwords' hlen'
        refine ⟨s', xs, ?_, ?_, ?_, hsub'.trans hsub, hlen'.trans hlen, fun x hx hxc => ?_⟩
        · rw [Machine.sweep, if_neg hu0, if_pos (htest.mpr hown), hrel]
          show m.sweep limit l.owner rounds (s1.get w.addr .next) s1 = .ok s'
          rw [hnext, hrun]
        · rwa [Function.update_idem] at hs'
        · rw [hxs, others, others, hbs, lives_append, lives_cons_none hwn, lives_append,
            lives_cons_some hl, hlives1, hlives2, List.filter_append, List.filter_append,
            List.filter_cons_of_neg (by rw [hown]; exact Bool.false_ne_true)]
        · rw [hwords' x (fun hx' => hx (hsub hx')) hxc, hwords x hx hxc]
      | false =>
        have hnext : s.get u.addr .next = (addrs post).headD 0 := (hbs ▸ h.arena a :
          Arena m s a (pre ++ u :: post)).next_eq
        have hsplit : bs a = (pre ++ [u]) ++ post := by rw [hbs, ← List.append_cons]
        obtain ⟨s', xs, hrun, hs', hxs, hsub', hlen', hwords'⟩ := ih h hsplit
          (by
            intro b hb
            rcases List.mem_append.mp hb with hb | hb
            · exact hpre b hb
            · rw [List.mem_singleton.mp hb, hown])
          (by rw [List.length_cons] at hrounds; omega) hlim
        refine ⟨s', xs, ?_, hs', hxs, hsub', hlen', hwords'⟩
        have hnot : ¬ (s.get u.addr .used ≠ 0 ∧ s.get u.addr .owner = o) := fun hh => by
          rw [htest.mp hh] at hown
          cases hown
        rw [Machine.sweep, if_neg hu0, if_neg hnot, hnext, hrun]

/-! ## Both arenas -/

/-- **What a torn down owner leaves**: the other owners' blocks with what is in them and their
counts, and nothing in use of its own. -/
structure TornDown (m : Machine) (owners : Set ℕ) (o : ℕ) (s s' : State) (bs bs' : Fin 2 → List Blk) :
    Prop where
  sound : Sound m owners s' bs'
  lives : ∀ a, lives (bs' a) = others o (bs a)
  bytes : ∀ a, ∀ b ∈ Heap.lives (bs' a), ∀ x ∈ b.bytes, x ≠ o + usedOff → s'.word x = s.word x
  own : s'.word (o + usedOff) = 0
  counts : ∀ o' ∈ owners, o' ≠ o → s'.word (o' + usedOff) = s.word (o' + usedOff)

theorem usedBy_others_self (o : ℕ) (xs : List Blk) : usedBy o (others o xs) = 0 := by
  have hnil : (others o xs).filter (Blk.ownedBy o) = [] := by
    rw [List.filter_eq_nil_iff]
    intro b hb hown
    rw [others, List.mem_filter, hown] at hb
    exact Bool.false_ne_true hb.2
  rw [usedBy, hnil]
  rfl

theorem usedBy_others {o' : ℕ} (hne : o' ≠ o) (xs : List Blk) :
    usedBy o' (others o xs) = usedBy o' xs := by
  rw [← usedBy_lives o' xs, usedBy, usedBy, others, List.filter_filter]
  congr 2
  refine List.filter_congr fun b _ => ?_
  rw [Bool.and_eq_left_iff_imp]
  intro hown
  obtain ⟨l, hl, hlo⟩ := ownedBy_iff.mp hown
  rw [Bool.not_eq_true', Bool.eq_false_iff]
  intro hown'
  obtain ⟨l', hl', hlo'⟩ := ownedBy_iff.mp hown'
  rw [hl] at hl'
  cases hl'
  exact hne (hlo.symm.trans hlo')

/-- The bytes of the blocks are apart from all headers. -/
theorem Sound.bytes_apart (h : Sound m owners s bs) (hb : b ∈ bs a) {x : ℕ} (hx : x ∈ b.bytes)
    (a' : Fin 2) : x ∉ headerWords (bs a') := by
  intro hx'
  have hin := (h.arena a).tiles.within.2 b hb
  by_cases ha : a = a'
  · subst ha
    obtain ⟨c, hc, hxc⟩ := hx'
    obtain ⟨h1, h2⟩ := hx
    obtain ⟨h3, h4⟩ := hxc
    by_cases hbc : b = c
    · subst hbc
      omega
    · have := (h.arena a).tiles.disjoint hb hc hbc
      rw [Blk.fin] at this h2
      rw [Blk.fin] at this
      omega
  · refine Set.disjoint_left.mp (m.arenas_disjoint ha) ⟨?_, ?_⟩ ((h.arena a').headerWords_within hx')
    · exact hin.1.trans ((Nat.le_add_right _ _).trans hx.1)
    · exact hx.2.trans_le hin.2

/-- A walk starts with the first block. -/
theorem Arena.first (h : Arena m s a xs) : (addrs xs).headD 0 = m.arenas a := by
  cases xs with
  | nil =>
    have hbase : m.arenas a = m.arenas a + arenaBytes a := h.tiles
    have hcases : ∀ a : Fin 2, 0 < arenaBytes a := by decide
    have := hcases a
    omega
  | cons b xs => exact h.tiles.1

/-- The two sweeps, one after the other. -/
theorem Sound.sweeps (h : Sound m owners s bs) (ho : o ∈ owners)
    (hlim : ∀ a, (bs a).length < limit) :
    ∃ s1 s' bs', m.sweep limit o limit (m.arenas 0) s = .ok s1 ∧
      m.sweep limit o limit (m.arenas 1) s1 = .ok s' ∧ TornDown m owners o s s' bs bs' ∧
      ∀ a, (bs' a).length ≤ (bs a).length := by
  obtain ⟨s1, xs, hrun1, hs1, hxs, hsub1, hlen1, hw1⟩ :=
    h.sweep (show bs 0 = [] ++ bs 0 from rfl) (fun b hb => absurd hb List.not_mem_nil) (hlim 0) (hlim 0)
  have h1 : Function.update bs 0 xs 1 = bs 1 := Function.update_of_ne (by decide) _ _
  obtain ⟨s', ys, hrun2, hs2, hys, hsub2, hlen2, hw2⟩ :=
    hs1.sweep (show Function.update bs 0 xs 1 = [] ++ bs 1 from h1) (fun b hb => absurd hb List.not_mem_nil) (hlim 1)
      (by rw [h1]; exact hlim 1)
  rw [(h.arena 0).first] at hrun1
  rw [(h.arena 1).first] at hrun2
  rw [h1] at hys hsub2 hlen2 hw2
  set bs' := Function.update (Function.update bs 0 xs) 1 ys with hbs'
  have h0 : bs' 0 = xs := (Function.update_of_ne (by decide) _ _).trans (Function.update_self _ _ _)
  have h1' : bs' 1 = ys := Function.update_self _ _ _
  have hlives : ∀ a, lives (bs' a) = others o (bs a) := by
    rw [Fin.forall_fin_two, h0, h1']
    exact ⟨hxs, hys⟩
  have hused : ∀ o' a, usedBy o' (bs' a) = usedBy o' (others o (bs a)) := fun o' a => by
    rw [← hlives a, usedBy_lives]
  have hcopy : ∀ a, ∀ x ∈ Set.Ico (m.arenas a) (m.arenas a + arenaBytes a), x ≠ o + usedOff →
      x ∉ countWords m o := by
    rintro a x hx hne (hxo | ⟨f, hf, rfl⟩)
    · exact hne hxo
    · exact m.heapUsed_outside (mem_of_fiberOf hf) a hx
  refine ⟨s1, s', bs', hrun1, hrun2, ⟨hs2, hlives, ?_, ?_, ?_⟩, ?_⟩
  · intro a b hb x hx hne
    rw [hlives a, others, List.mem_filter, mem_lives] at hb
    have hin := (h.arena a).tiles.within.2 b hb.1.1
    have hxin : x ∈ Set.Ico (m.arenas a) (m.arenas a + arenaBytes a) :=
      ⟨hin.1.trans ((Nat.le_add_right _ _).trans hx.1), hx.2.trans_le hin.2⟩
    rw [hw2 x (h.bytes_apart hb.1.1 hx 1) (hcopy a x hxin hne),
      hw1 x (h.bytes_apart hb.1.1 hx 0) (hcopy a x hxin hne)]
  · rw [hs2.counts o ho, hused, hused, usedBy_others_self, usedBy_others_self]
  · intro o' ho' hne
    rw [hs2.counts o' ho', h.counts o' ho', hused, hused, usedBy_others hne, usedBy_others hne]
  · rw [Fin.forall_fin_two, h0, h1']
    exact ⟨hlen1, hlen2⟩

/-! ## The control record -/

theorem Arena.aligned (h : Arena m s a xs) (hb : b ∈ xs) : b.addr % 16 = 0 := by
  have hbase : m.arenas a % 16 = 0 := by
    have hc := m.code_aligned
    rw [Machine.arenas]
    split
    · exact m.data_aligned
    · omega
  have hwalk : ∀ {i j : ℕ} {ys : List Blk}, Tiles i ys j → (∀ c ∈ ys, c.size % 16 = 0) → i % 16 = 0 →
      ∀ c ∈ ys, c.addr % 16 = 0 := by
    intro i j ys
    induction ys generalizing i with
    | nil => exact fun _ _ _ c hc => absurd hc List.not_mem_nil
    | cons d ys ih =>
      rintro ⟨rfl, ht⟩ hsz hi c hc
      have hd := hsz d List.mem_cons_self
      rcases List.mem_cons.mp hc with rfl | hc
      · exact hi
      · refine ih ht (fun c hc => hsz c (List.mem_cons_of_mem _ hc)) ?_ c hc
        rw [Blk.fin]
        omega
  exact hwalk h.tiles (fun c hc => (h.sizes c hc).2) hbase b hb

theorem Arena.getBlock (h : Arena m s a xs) (hb : b ∈ xs) (hl : b.live = some l) :
    m.getBlock (b.addr + 64) s = .ok b.addr := by
  have hin := h.tiles.within.2 b hb
  have hsz := h.sizes b hb
  have hal := h.aligned hb
  have hh := h.headers b hb
  rw [Blk.fin] at hin
  have hvalid : (m.dataArena + 64 ≤ b.addr + 64 ∧ b.addr + 64 < m.dataArena + dataBytes ∨
      m.codeArena + 64 ≤ b.addr + 64 ∧ b.addr + 64 < m.codeArena + codeBytes) ∧
      (b.addr + 64) % 16 = 0 := by
    refine ⟨?_, by omega⟩
    have hcases : ∀ a : Fin 2, a = 0 ∨ a = 1 := by decide
    rcases hcases a with rfl | rfl
    · have e1 : m.arenas 0 = m.dataArena := rfl
      have e2 : arenaBytes 0 = dataBytes := rfl
      exact Or.inl ⟨by omega, by omega⟩
    · have e1 : m.arenas 1 = m.codeArena := rfl
      have e2 : arenaBytes 1 = codeBytes := rfl
      exact Or.inr ⟨by omega, by omega⟩
  rw [Machine.getBlock, if_pos hvalid, Nat.add_sub_cancel, if_neg]
  rw [hh.magic, (hh.live l hl).1]
  exact fun hor => hor.elim (fun h => h rfl) fun h => absurd h Nat.one_ne_zero

/-- `Free` of a block in use gives back that block and no other. -/
theorem Sound.free (h : Sound m owners s bs) (hmem : u ∈ bs a) (hu : u.live = some l)
    (hlim : (bs a).length < limit) :
    ∃ s' bs', m.free limit (u.addr + 64) s = .ok s' ∧ Sound m owners s' bs' ∧
      lives (bs' a) = (lives (bs a)).erase u ∧ (∀ a' ≠ a, bs' a' = bs a') ∧
      ∀ x ∉ headerWords (bs a), x ∉ countWords m l.owner → s'.word x = s.word x := by
  obtain ⟨pre, post, hbs⟩ := List.append_of_mem hmem
  obtain ⟨s', w, pre', post', hrun, hs', hwn, -, -, hlives1, hlives2, -, hwords⟩ :=
    h.release hbs hu hlim
  refine ⟨s', Function.update bs a (pre' ++ w :: post'), ?_, hs', ?_, ?_, hwords⟩
  · rw [Machine.free, if_neg (Nat.add_one_ne_zero _), (h.arena a).getBlock hmem hu]
    show (m.release limit u.addr s >>= fun r => pure r.1) = _
    rw [hrun]
    rfl
  · have hnd := (h.arena a).nodup
    rw [hbs, addrs_append, addrs_cons, List.nodup_append] at hnd
    have hpre : u ∉ lives pre := fun hm =>
      hnd.2.2 _ (mem_addrs.mpr ⟨u, (mem_lives.mp hm).1, rfl⟩) _ List.mem_cons_self rfl
    rw [Function.update_self, lives_append, lives_cons_none hwn, hlives1, hlives2, hbs, lives_append,
      lives_cons_some hu, List.erase_append_right _ hpre, List.erase_cons_head]
  · exact fun a' ha' => Function.update_of_ne ha' _ _

/-- **A torn down owner.**  Both sweeps end, leave the other owners alone and keep the heap sound;
`HeapCtrlDel` then gives back the block of the control record, and no more. -/
theorem owner_torn_down (h : Sound m owners s bs) (ho : o ∈ owners)
    (hlim : ∀ a, (bs a).length < limit) :
    ∃ s' bs', TornDown m owners o s s' bs bs' ∧ m.reclaimGuestHeap limit o s = .ok s' ∧
      m.heapCtrlDel limit o s = m.free limit o s' ∧
      ∀ a, ∀ u ∈ bs' a, ∀ l, u.live = some l → o = u.addr + 64 →
        ∃ s'' bs'', m.heapCtrlDel limit o s = .ok s'' ∧ Sound m owners s'' bs'' ∧
          lives (bs'' a) = (lives (bs' a)).erase u ∧ (∀ a' ≠ a, bs'' a' = bs' a') ∧
          s''.word (o + usedOff) = 0 := by
  obtain ⟨s1, s', bs', hrun1, hrun2, htorn, hshort⟩ := h.sweeps ho hlim
  have hdel : m.heapCtrlDel limit o s = m.free limit o s' := by
    rw [Machine.heapCtrlDel, hrun1]
    show (m.sweep limit o limit (m.arenas 1) s1 >>= fun s => m.free limit o s) = _
    rw [hrun2]
    rfl
  refine ⟨s', bs', htorn, ?_, hdel, fun a u hu l hl hrec => ?_⟩
  · rw [Machine.reclaimGuestHeap, hrun1]
    exact hrun2
  · obtain ⟨s'', bs'', hfree, hs'', hlives, hother, hwords⟩ :=
      htorn.sound.free hu hl ((hshort a).trans_lt (hlim a))
    have hne : o ≠ l.owner := by
      rintro rfl
      have hm : u ∈ lives (bs' a) := mem_lives.mpr ⟨hu, l, hl⟩
      rw [htorn.lives, others, List.mem_filter, ownedBy_iff.mpr ⟨l, hl, rfl⟩] at hm
      exact Bool.false_ne_true hm.2
    refine ⟨s'', bs'', by rw [hdel, ← hfree, hrec], hs'', hlives, hother, ?_⟩
    rw [hwords, htorn.own]
    · exact htorn.sound.countsApart o ho a
    · rintro (heq | ⟨f, hf, heq⟩)
      · exact hne (Nat.add_right_cancel heq)
      · exact htorn.sound.copiesApart f (mem_of_fiberOf hf) o ho heq.symm

/-- One task with a copy of its count. -/
def oneTask : Machine where
  dataArena := 0x10000000
  codeArena := 0x20000000
  guestTaskBound := true
  guestFibers := [⟨0x1000, true, 0x2000⟩]
  data_pos := by decide
  data_aligned := by decide
  code_pos := by decide
  code_aligned := by decide
  apart := by decide
  data_fits := by decide
  code_fits := by decide
  fibers_apart := by decide

local instance twoArenas : NeZero 2 := ⟨by decide⟩

/-- A block of the task at the start of the data arena, and nothing else in use. -/
def oneBlock (a : Fin 2) : List Blk :=
  if a = 0 then [⟨0x10000000, 1024, some ⟨1000, 0x1000, 7⟩⟩, ⟨0x10000440, dataBytes - 1152, none⟩]
  else [⟨0x20000000, codeBytes - 64, none⟩]

/-- The words of these headers, and the count. -/
def oneBlockState : State where
  word x := ([(0x10000000, blockMagic), (0x10000008, 1024), (0x10000010, 1000),
    (0x10000020, 0x10000440), (0x10000028, 0x1000), (0x10000030, 1), (0x10000038, 7),
    (0x10000440, blockMagic), (0x10000448, dataBytes - 1152), (0x10000458, 0x10000000),
    (0x20000000, blockMagic), (0x20000008, codeBytes - 64), (0x1020, 1024)].lookup x).getD 0
  freeHeads a := if a = 0 then 0x10000440 else 0x20000000

theorem oneBlock_sound : Sound oneTask {0x1000} oneBlockState oneBlock where
  arena := by
    rw [Fin.forall_fin_two]
    constructor
    · refine ⟨⟨rfl, rfl, rfl⟩, by decide, ?_, ⟨rfl, rfl, rfl, rfl, trivial⟩, ⟨rfl, rfl, trivial⟩, rfl⟩
      intro b hb
      rcases List.mem_cons.mp hb with rfl | hb
      · refine ⟨rfl, rfl, nofun, fun l hl => ?_⟩
        cases hl
        exact ⟨rfl, rfl, rfl, rfl⟩
      · rw [List.mem_singleton.mp hb]
        exact ⟨rfl, rfl, fun _ => ⟨rfl, rfl⟩, nofun⟩
    · refine ⟨⟨rfl, rfl⟩, by decide, ?_, ⟨rfl, rfl, trivial⟩, ⟨rfl, rfl, trivial⟩, rfl⟩
      intro b hb
      rw [List.mem_singleton.mp hb]
      exact ⟨rfl, rfl, fun _ => ⟨rfl, rfl⟩, nofun⟩
  merged := by
    rw [Fin.forall_fin_two]
    exact ⟨List.IsChain.cons_cons (Or.inl nofun) (List.IsChain.singleton _), List.IsChain.singleton _⟩
  owned := by
    rw [Fin.forall_fin_two]
    refine ⟨fun b hb l hl => ?_, fun b hb l hl => ?_⟩
    · rcases List.mem_cons.mp hb with rfl | hb
      · cases hl
        rfl
      · rw [List.mem_singleton.mp hb] at hl
        cases hl
    · rw [List.mem_singleton.mp hb] at hl
      cases hl
  counts := by
    rintro o rfl
    rfl
  countsApart := by
    rintro o rfl
    rw [Fin.forall_fin_two]
    refine ⟨?_, ?_⟩
    · rintro ⟨b, hb, h1, -⟩
      have hle : ∀ b ∈ oneBlock 0, 0x1000 + usedOff < b.addr := by decide
      exact absurd h1 (Nat.not_le.mpr (hle b hb))
    · rintro ⟨b, hb, h1, -⟩
      have hle : ∀ b ∈ oneBlock 1, 0x1000 + usedOff < b.addr := by decide
      exact absurd h1 (Nat.not_le.mpr (hle b hb))
  copiesApart := by
    rintro f hf o rfl
    rw [List.mem_singleton.mp hf]
    decide

theorem owner_torn_down_oneBlock : ∃ s' bs', TornDown oneTask {0x1000} 0x1000 oneBlockState s' oneBlock bs' ∧
    oneTask.reclaimGuestHeap 3 0x1000 oneBlockState = .ok s' := by
  obtain ⟨s', bs', h1, h2, -⟩ := owner_torn_down oneBlock_sound rfl (show ∀ a, (oneBlock a).length < 3 by decide)
  exact ⟨s', bs', h1, h2⟩

end ZealBringup.Heap
