import Mathlib
import ZealBringup.Heap.Teardown

/-!
# Blocks taken

`arena_alloc` takes the first free block that is large enough, cuts off what it does not need and
leaves the rest in its place in the free list.  On the list of blocks that is the walk over all
blocks of the arena, which `place` makes.

* `fitLoop_eq` — the walk along the free list finds what the walk over all blocks finds.
* `Arena.take` — the words of the arena after it.
* `Sound.place` — the heap stays sound.
-/

namespace ZealBringup.Heap

open Links

variable {m : Machine} {s s' : State} {a : Fin 2} {hs : List ℕ} {x y b c n prev next : ℕ}
  {pre post bs : List Blk} {u v : Blk} {l : Live} {limit : ℕ}

/-! ## The block that fits -/

/-- A free block of so many bytes. -/
def Blk.fits (n : ℕ) (b : Blk) : Bool := b.live.isNone && n ≤ b.size

/-- A free block taken for so many bytes. -/
def Blk.taken (n : ℕ) (l : Live) (u : Blk) : Blk :=
  ⟨u.addr, if n + 64 + 16 ≤ u.size then n else u.size, some l⟩

/-- What is left of it. -/
def Blk.rest (n : ℕ) (u : Blk) : List Blk :=
  if n + 64 + 16 ≤ u.size then [⟨u.addr + 64 + n, u.size - n - 64, none⟩] else []

/-- The first block that fits is taken: its address, and the blocks after that. -/
def place (n : ℕ) (l : Live) : List Blk → Option (ℕ × List Blk)
  | [] => none
  | b :: bs =>
    if b.fits n then some (b.addr, b.taken n l :: (b.rest n ++ bs))
    else (place n l bs).map fun r => (r.1, b :: r.2)

theorem place_append (hpre : ∀ b ∈ pre, b.fits n = false) (hu : u.fits n = true) :
    place n l (pre ++ u :: post) = some (u.addr, pre ++ u.taken n l :: (u.rest n ++ post)) := by
  induction pre with
  | nil => exact if_pos hu
  | cons b pre ih =>
    rw [List.cons_append, place, hpre b List.mem_cons_self, if_neg Bool.false_ne_true,
      ih fun c hc => hpre c (List.mem_cons_of_mem _ hc)]
    rfl

theorem place_none (h : ∀ b ∈ bs, b.fits n = false) : place n l bs = none := by
  induction bs with
  | nil => rfl
  | cons b bs ih =>
    rw [place, h b List.mem_cons_self, if_neg Bool.false_ne_true,
      ih fun c hc => h c (List.mem_cons_of_mem _ hc)]
    rfl

theorem fits_cases (n : ℕ) (bs : List Blk) : (∀ b ∈ bs, b.fits n = false) ∨
    ∃ pre u post, bs = pre ++ u :: post ∧ (∀ b ∈ pre, b.fits n = false) ∧ u.fits n = true := by
  cases hfind : bs.find? (Blk.fits n) with
  | none => exact Or.inl fun b hb => Bool.eq_false_iff.mpr (List.find?_eq_none.mp hfind b hb)
  | some u =>
    obtain ⟨hu, pre, post, rfl, hpre⟩ := List.find?_eq_some_iff_append.mp hfind
    refine Or.inr ⟨pre, u, post, rfl, fun b hb => ?_, hu⟩
    simpa using hpre b hb

theorem fits_iff : u.fits n = true ↔ u.live = none ∧ n ≤ u.size := by
  rw [Blk.fits, Bool.and_eq_true, Option.isNone_iff_eq_none, decide_eq_true_eq]

/-- **The walk along the free list** is the walk over all blocks. -/
theorem fitLoop_eq {q : ℕ} (hheaders : ∀ b ∈ bs, Header s b) (hpos : 0 ∉ addrs bs)
    (hseg : Seg (s.get · .owner) (s.get · .pad) q (frees bs) 0) (hlim : bs.length < limit) :
    fitLoop s n limit ((frees bs).headD 0) =
      .ok (((bs.find? (Blk.fits n)).map Blk.addr).getD 0) := by
  induction bs generalizing q limit with
  | nil =>
    obtain _ | limit := limit
    · exact absurd hlim (Nat.not_lt_zero _)
    · rfl
  | cons u bs ih =>
    obtain _ | limit := limit
    · exact absurd hlim (Nat.not_lt_zero _)
    rw [addrs_cons, List.mem_cons, not_or] at hpos
    have hlim' : bs.length < limit := by
      rw [List.length_cons] at hlim
      omega
    have hrest := fun {q : ℕ} (hseg : Seg (s.get · .owner) (s.get · .pad) q (frees bs) 0) =>
      ih (fun b hb => hheaders b (List.mem_cons_of_mem _ hb)) hpos.2 hseg hlim'
    cases hu : u.live with
    | some l =>
      have hnot : u.fits n = false := by rw [Blk.fits, hu]; rfl
      rw [frees_cons_some hu] at hseg ⊢
      rw [List.find?_cons_of_neg (by rw [hnot]; exact Bool.false_ne_true)]
      exact ih (fun b hb => hheaders b (List.mem_cons_of_mem _ hb)) hpos.2 hseg (by omega)
    | none =>
      rw [frees_cons_none hu] at hseg ⊢
      obtain ⟨-, hnext, htail⟩ := hseg
      have hnext' : freeNext s u.addr = (frees bs).headD 0 := hnext
      have hsize := (hheaders u List.mem_cons_self).size
      show fitLoop s n (limit + 1) u.addr = _
      rw [fitLoop, if_neg (Ne.symm hpos.1), hsize]
      by_cases hlt : u.size < n
      · have hnot : ¬ u.fits n = true := fun h => Nat.not_le.mpr hlt (fits_iff.mp h).2
        rw [if_pos hlt, hnext', hrest htail, List.find?_cons_of_neg hnot]
      · rw [if_neg hlt, List.find?_cons_of_pos (fits_iff.mpr ⟨hu, Nat.not_lt.mp hlt⟩)]
        rfl

/-! ## Headers written -/

theorem setBlock_get (prev next size : ℕ) (hap : Apart hs) (hx : x ∈ hs) (hb : b ∈ hs) (f : Field) :
    (s.setBlock x size prev next).get b f = if b = x then
      (match f with
        | .magic => blockMagic
        | .size => size
        | .prev => prev
        | .next => next
        | _ => 0)
      else s.get b f := by
  simp only [State.setBlock, get_set hap hb hx]
  by_cases hbx : b = x
  · cases f <;> simp [hbx]
  · simp only [hbx, false_and, if_false]

theorem setBlock_keeps (hx : x ∈ hs) {size : ℕ} :
    Keeps (within hs) a s (s.setBlock x size prev next) :=
  (((((((Keeps.set hx).trans (Keeps.set hx)).trans (Keeps.set hx)).trans (Keeps.set hx)).trans
    (Keeps.set hx)).trans (Keeps.set hx)).trans (Keeps.set hx)).trans (Keeps.set hx)

theorem claim_get (count owner pc : ℕ) (hap : Apart hs) (hx : x ∈ hs) (hb : b ∈ hs) (f : Field) :
    (s.claim x count owner pc).get b f = if b = x then
      (match f with
        | .used => 1
        | .requested => count
        | .owner => owner
        | .pad => pc
        | f => s.get x f)
      else s.get b f := by
  simp only [State.claim, get_set hap hb hx]
  by_cases hbx : b = x
  · cases f <;> simp [hbx]
  · simp only [hbx, false_and, if_false]

theorem claim_keeps (hx : x ∈ hs) {count owner pc : ℕ} :
    Keeps (within hs) a s (s.claim x count owner pc) :=
  (((Keeps.set hx).trans (Keeps.set hx)).trans (Keeps.set hx)).trans (Keeps.set hx)

/-- **What a cut leaves** of the words of the headers. -/
theorem cut_get (hap : Apart hs) (hx : x ∈ hs) (ht : x + 64 + n ∈ hs)
    (hnext : s.get x .next = 0 ∨ s.get x .next ∈ hs) (hp : freePrev s x = 0 ∨ freePrev s x ∈ hs)
    (hn : freeNext s x = 0 ∨ freeNext s x ∈ hs) (hb : b ∈ hs) :
    (cut a x n s).get b .owner = link (Function.update (s.get · .owner) (x + 64 + n) (freePrev s x))
        (freeNext s x) (x + 64 + n) b ∧
      (cut a x n s).get b .pad = link (Function.update (s.get · .pad) (x + 64 + n) (freeNext s x))
        (freePrev s x) (x + 64 + n) b ∧
      (∀ f, f ≠ .owner → f ≠ .pad → (cut a x n s).get b f = if b = x ∧ f = .size then n else
        if b = x ∧ f = .next then x + 64 + n else
        if (s.get x .next ≠ 0 ∧ b = s.get x .next) ∧ f = .prev then x + 64 + n else
        (s.setBlock (x + 64 + n) (s.get x .size - n - 64) x (s.get x .next)).get b f) ∧
      (cut a x n s).freeHeads a = (if freePrev s x = 0 then x + 64 + n else s.freeHeads a) ∧
      Keeps (within hs) a s (cut a x n s) := by
  set t := x + 64 + n with htail
  have hxt : x ≠ t := by omega
  set r := (((s.setBlock t (s.get x .size - n - 64) x (s.get x .next)).link (s.get x .next) .prev
    t).set x .next t).set x .size n with hr
  have hget : ∀ c ∈ hs, ∀ f, r.get c f = if c = x ∧ f = .size then n else
      if c = x ∧ f = .next then t else
      if (s.get x .next ≠ 0 ∧ c = s.get x .next) ∧ f = .prev then t else
      (s.setBlock t (s.get x .size - n - 64) x (s.get x .next)).get c f := fun c hc f => by
    rw [hr, get_set hap hc hx, get_set hap hc hx, get_link hap hc hnext]
  have hlink : ∀ c ∈ hs, ∀ f, f = .owner ∨ f = .pad → c ≠ t → r.get c f = s.get c f := by
    rintro c hc f hf hct
    rw [hget c hc, setBlock_get _ _ _ hap ht hc, if_neg hct]
    rcases hf with rfl | rfl <;> simp only [reduceCtorEq, and_false, if_false]
  have hcut : cut a x n s = ((((r.set t .owner (freePrev s x)).set t .pad (freeNext s x)).linkOrHead a
      (freePrev s x) .pad t).link (freeNext s x) .owner t) := by
    rw [show freePrev s x = freePrev r x from (hlink x hx .owner (Or.inl rfl) hxt).symm,
      show freeNext s x = freeNext r x from (hlink x hx .pad (Or.inr rfl) hxt).symm]
    have hnext' : (s.setBlock t (s.get x .size - n - 64) x (s.get x .next)).get t .next =
        s.get x .next := by
      rw [setBlock_get _ _ _ hap ht ht, if_pos rfl]
    rw [hr, Heap.cut, ← htail]
    rfl
  obtain ⟨h1, h2, h3, h4, h5⟩ := insert_get (a := a) hap ht hp hn hb hcut
  have hupd : ∀ f, f = .owner ∨ f = .pad → ∀ v, Function.update (r.get · f) t v b =
      Function.update (s.get · f) t v b := by
    intro f hf v
    rw [Function.update_apply, Function.update_apply]
    exact if_ctx_congr Iff.rfl (fun _ => rfl) fun hbt => hlink b hb f hf hbt
  refine ⟨?_, ?_, fun f hf1 hf2 => (h3 f hf1 hf2).trans (hget b hb f), h4.trans ?_, ?_⟩
  · rw [h1, link_apply, link_apply, hupd .owner (Or.inl rfl)]
  · rw [h2, link_apply, link_apply, hupd .pad (Or.inr rfl)]
  · exact if_congr Iff.rfl rfl (congrFun freeHeads_link a)
  · exact ((((setBlock_keeps ht).trans (Keeps.link hnext)).trans (Keeps.set hx)).trans
      (Keeps.set hx)).trans h5

/-! ## A block of an arena taken -/

/-- The place of a free block in the free list. -/
structure Spot (s : State) (pre : List Blk) (u : Blk) (post : List Blk) : Prop where
  prev : freePrev s u.addr = (frees pre).getLastD 0
  next : freeNext s u.addr = (frees post).headD 0
  frees : frees (pre ++ u :: post) = frees pre ++ u.addr :: frees post
  sub : (Heap.frees pre ++ Heap.frees post).Sublist (addrs (pre ++ u :: post))
  notMem : u.addr ∉ Heap.frees pre ++ Heap.frees post

theorem Arena.spot (h : Arena m s a (pre ++ u :: post)) (hu : u.live = none) :
    Spot s pre u post := by
  have hfrees : frees (pre ++ u :: post) = frees pre ++ u.addr :: frees post := by
    rw [frees_append, frees_cons_none hu]
  have hnd := (frees_sublist (pre ++ u :: post)).nodup h.nodup
  have hfree := h.freeChain
  rw [hfrees] at hfree hnd
  obtain ⟨-, h1, h2, -⟩ := seg_append.mp hfree
  refine ⟨h1, h2, hfrees, ?_, (List.nodup_cons.mp (List.nodup_middle.mp hnd)).1⟩
  refine List.Sublist.trans ?_ (frees_sublist _)
  rw [hfrees]
  exact (List.sublist_cons_self _ _).append_left _

theorem Spot.mem (h : Spot s pre u post) (hsub : addrs (pre ++ u :: post) ⊆ hs) :
    (freePrev s u.addr = 0 ∨ freePrev s u.addr ∈ hs) ∧
      (freeNext s u.addr = 0 ∨ freeNext s u.addr ∈ hs) := by
  rw [h.prev, h.next]
  exact ⟨(mem_or_zero fun y hy => hsub (h.sub.subset (List.mem_append_left _ hy))).2,
    (mem_or_zero fun y hy => hsub (h.sub.subset (List.mem_append_right _ hy))).1⟩

theorem Spot.head (h : Spot s pre u post) (ha : Arena m s a (pre ++ u :: post)) (A : List ℕ) :
    (if freePrev s u.addr = 0 then (A ++ Heap.frees post).headD 0 else s.freeHeads a) =
      (Heap.frees pre ++ (A ++ Heap.frees post)).headD 0 := by
  rw [h.prev, ha.head, h.frees]
  cases hpre : Heap.frees pre with
  | nil => rfl
  | cons y B =>
    refine if_neg fun h0 => ha.pos (h.sub.subset (List.mem_append_left _ ?_))
    rw [← h0, hpre]
    exact getLastD_mem y B

theorem Arena.notMem_free (h : Arena m s a (pre ++ u :: post)) (hb : v ∈ pre ++ post)
    (hl : v.live = some l) : v.addr ∉ frees pre ∧ v.addr ∉ frees post := by
  have hsub := (List.sublist_cons_self u post).append_left pre
  rw [← not_or, ← List.mem_append, ← frees_append]
  exact fun hv => h.notMem_frees (hsub.subset hb) hl
    (((hsub.filter fun b => b.live.isNone).map Blk.addr).subset hv)

theorem Tiles.other {i j : ℕ} (h : Tiles i (pre ++ u :: post) j) (hv : v ∈ pre ++ post) :
    v ∈ pre ++ u :: post ∧ v.addr ∈ addrs (pre ++ u :: post) ∧ v.addr ≠ u.addr := by
  have hmem := ((List.sublist_cons_self u post).append_left pre).subset hv
  refine ⟨hmem, mem_addrs.mpr ⟨v, hmem, rfl⟩, fun heq => ?_⟩
  have hnd := h.nodup
  rw [addrs_append, addrs_cons] at hnd
  refine (List.nodup_cons.mp (List.nodup_middle.mp hnd)).1 ?_
  rw [← heq, ← addrs_append]
  exact mem_addrs.mpr ⟨v, hv, rfl⟩

theorem Arena.claimed (htiles : Tiles (m.arenas a) (pre ++ u :: post) (m.arenas a + arenaBytes a))
    (hsizes : ∀ b ∈ pre ++ u :: post, 16 ≤ b.size ∧ b.size % 16 = 0) (hu : u.live = some l)
    (hmagic : s.get u.addr .magic = blockMagic) (hsize : s.get u.addr .size = u.size)
    (hheaders : ∀ b ∈ pre ++ post, Header s b)
    (hchain : Seg (s.get · .prev) (s.get · .next) 0 (addrs (pre ++ u :: post)) 0)
    (hfree : Seg (s.get · .owner) (s.get · .pad) 0 (frees (pre ++ post)) 0)
    (hhead : s.freeHeads a = (frees (pre ++ post)).headD 0) :
    Arena m (s.claim u.addr l.requested l.owner l.pad) a (pre ++ u :: post) ∧
      Keeps (headerWords (pre ++ u :: post)) a s (s.claim u.addr l.requested l.owner l.pad) := by
  have hum : u.addr ∈ addrs (pre ++ u :: post) := mem_addrs.mpr ⟨u, by simp, rfl⟩
  have hfrees : frees (pre ++ u :: post) = frees (pre ++ post) := by
    rw [frees_append, frees_append, frees_cons_some hu]
  have hget := fun (b : ℕ) (hb : b ∈ addrs (pre ++ u :: post)) (f : Field) =>
    claim_get (s := s) l.requested l.owner l.pad (fun _ hx _ hy hne => htiles.apart hx hy hne) hum hb f
  have hother := fun b (hb : b ∈ pre ++ post) => (htiles.other hb).2
  refine ⟨⟨htiles, hsizes, fun b hb => ?_, ?_, ?_, hhead.trans (congrArg (·.headD 0) hfrees.symm)⟩,
    within_addrs _ ▸ claim_keeps hum⟩
  · rcases List.mem_cons.mp (List.perm_middle.subset hb) with rfl | hb
    · refine ⟨(hget _ hum _).trans ((if_pos rfl).trans hmagic),
        (hget _ hum _).trans ((if_pos rfl).trans hsize), fun h => ?_, fun l' hl' => ?_⟩
      · rw [hu] at h
        cases h
      · obtain rfl : l = l' := Option.some.inj (hu.symm.trans hl')
        simp only [hget _ hum, if_true, and_self]
    · exact (hheaders b hb).frame fun f => (hget _ (hother b hb).1 f).trans (if_neg (hother b hb).2)
  · refine hchain.congr (fun y hy => ?_) fun y hy => ?_
    all_goals
      by_cases hyu : y = u.addr
      · rw [hget y hy, if_pos hyu, hyu]
      · rw [hget y hy, if_neg hyu]
  · rw [hfrees]
    refine hfree.congr (fun y hy => ?_) fun y hy => ?_
    all_goals
      obtain ⟨b, hb, -, rfl⟩ := mem_frees.mp hy
      exact (hget _ (hother b hb).1 _).trans (if_neg (hother b hb).2)

theorem Arena.whole (h : Arena m s a (pre ++ u :: post)) (hu : u.live = none) (l : Live) :
    Arena m ((freeListRemove a u.addr s).claim u.addr l.requested l.owner l.pad) a
        (pre ++ { u with live := some l } :: post) ∧
      Keeps (headerWords (pre ++ { u with live := some l } :: post)) a s
        ((freeListRemove a u.addr s).claim u.addr l.requested l.owner l.pad) := by
  have hspot := h.spot hu
  have haddrs : addrs (pre ++ { u with live := some l } :: post) = addrs (pre ++ u :: post) := by
    rw [addrs_append, addrs_append, addrs_cons, addrs_cons]
  have hum : u.addr ∈ addrs (pre ++ u :: post) := mem_addrs.mpr ⟨u, by simp, rfl⟩
  obtain ⟨hpm, hnm⟩ := hspot.mem (List.Subset.refl _)
  have hget := fun (b : ℕ) (hb : b ∈ addrs (pre ++ u :: post)) =>
    freeListRemove_get (a := a) h.apart hum hpm hnm hb
  have hhu := h.headers u (by simp)
  obtain ⟨k, ht1, ht2, ht3⟩ := tiles_append.mp h.tiles
  have htiles : Tiles (m.arenas a) (pre ++ { u with live := some l } :: post)
      (m.arenas a + arenaBytes a) := tiles_append.mpr ⟨k, ht1, ht2, ht3⟩
  have hclaimed := Arena.claimed (m := m) (a := a) (s := freeListRemove a u.addr s)
    htiles (fun b hb => ?_) rfl
    (((hget _ hum).2 .magic Field.ne Field.ne).trans hhu.magic)
    (((hget _ hum).2 .size Field.ne Field.ne).trans hhu.size) (fun b hb => ?_) ?_ ?_ ?_
  · refine ⟨hclaimed.1, (Keeps.trans ?_ hclaimed.2)⟩
    rw [← within_addrs, haddrs]
    exact freeListRemove_keeps hum hpm hnm
  · rcases List.mem_cons.mp (List.perm_middle.subset hb) with rfl | hb
    · exact h.sizes u (by simp)
    · exact h.sizes b (h.tiles.other hb).1
  · obtain ⟨hbmem, hbm, hbu⟩ := h.tiles.other hb
    refine (h.headers b hbmem).relink (fun f _ _ hf3 hf4 => (hget _ hbm).2 f hf3 hf4) fun l' hl' => ?_
    rw [((hget _ hbm).1 hbu).1, ((hget _ hbm).1 hbu).2, hspot.prev, hspot.next]
    exact ⟨(link_live (h.notMem_free hb hl').2 _).1, (link_live (h.notMem_free hb hl').1 _).2⟩
  · rw [haddrs]
    exact h.chain.congr (fun y hy => (hget y hy).2 _ Field.ne Field.ne)
      fun y hy => (hget y hy).2 _ Field.ne Field.ne
  · rw [frees_append]
    refine ((hspot.frees ▸ h.freeChain).remove (fun h0 => h.pos (hspot.sub.subset h0))
      (hspot.sub.nodup h.nodup)).congr (fun y hy => ?_) fun y hy => ?_
    all_goals have hyu : y ≠ u.addr := fun heq => hspot.notMem (heq ▸ hy)
    · rw [((hget y (hspot.sub.subset hy)).1 hyu).1, hspot.prev, hspot.next]
    · rw [((hget y (hspot.sub.subset hy)).1 hyu).2, hspot.prev, hspot.next]
  · rw [freeListRemove_head, hspot.next, frees_append]
    exact hspot.head h []

/-- A free block cut in two, and its first bytes taken. -/
theorem Arena.cut (h : Arena m s a (pre ++ u :: post)) (hu : u.live = none) (l : Live)
    (hn16 : 16 ≤ n ∧ n % 16 = 0) (hroom : n + 64 + 16 ≤ u.size) {t : Blk}
    (ht : t = ⟨u.addr + 64 + n, u.size - n - 64, none⟩) :
    Arena m ((Heap.cut a u.addr n s).claim u.addr l.requested l.owner l.pad) a
        (pre ++ ⟨u.addr, n, some l⟩ :: t :: post) ∧
      Keeps (headerWords (pre ++ ⟨u.addr, n, some l⟩ :: t :: post)) a s
        ((Heap.cut a u.addr n s).claim u.addr l.requested l.owner l.pad) := by
  have htaddr : t.addr = u.addr + 64 + n := by rw [ht]
  have htsize : t.size = u.size - n - 64 := by rw [ht]
  have htnone : t.live = none := by rw [ht]
  have htiles : Tiles (m.arenas a) (pre ++ ⟨u.addr, n, some l⟩ :: t :: post)
      (m.arenas a + arenaBytes a) := by
    obtain ⟨k, h1, rfl, h2⟩ := tiles_append.mp h.tiles
    refine tiles_append.mpr ⟨_, h1, rfl, htaddr, ?_⟩
    rwa [show t.fin = u.fin by rw [Blk.fin, Blk.fin]; omega]
  have hspot := h.spot hu
  set hs := addrs (pre ++ ⟨u.addr, n, some l⟩ :: t :: post) with hhs
  have hhs' : hs = (addrs pre ++ [u.addr]) ++ t.addr :: addrs post := by
    rw [hhs, addrs_append, addrs_cons, addrs_cons, List.append_cons]
  have hap : Apart hs := fun _ hx _ hy hne => htiles.apart hx hy hne
  have hold : addrs (pre ++ u :: post) = (addrs pre ++ [u.addr]) ++ addrs post := by
    rw [addrs_append, addrs_cons, List.append_cons]
  have hsub : addrs (pre ++ u :: post) ⊆ hs := by
    rw [hhs', hold]
    exact ((List.sublist_cons_self _ _).append_left _).subset
  have hnt : t.addr ∉ addrs (pre ++ u :: post) := by
    have hnd := htiles.nodup
    rw [← hhs, hhs'] at hnd
    rw [hold]
    exact (List.nodup_cons.mp (List.nodup_middle.mp hnd)).1
  have hu' : u.addr ∈ addrs (pre ++ u :: post) := mem_addrs.mpr ⟨u, by simp, rfl⟩
  have hum : u.addr ∈ hs := hsub hu'
  have htm : t.addr ∈ hs := hhs' ▸ List.mem_append_right _ List.mem_cons_self
  have hu0 : u.addr ≠ 0 := fun h0 => h.pos (h0 ▸ hu')
  have hut : u.addr ≠ t.addr := fun heq => hnt (heq ▸ hu')
  have hnext := h.next_eq
  have hposts : addrs post ⊆ addrs (pre ++ u :: post) := hold ▸ List.subset_append_right _ _
  have hcm : s.get u.addr .next = 0 ∨ s.get u.addr .next ∈ hs :=
    hnext ▸ (mem_or_zero fun y hy => hsub (hposts hy)).1
  obtain ⟨hpm, hnm⟩ := hspot.mem hsub
  have hget := fun (b : ℕ) (hb : b ∈ hs) =>
    cut_get (a := a) (n := n) hap hum (htaddr ▸ htm) hcm hpm hnm hb
  simp only [← htaddr] at hget
  have hblock := fun (b : ℕ) (hb : b ∈ hs) (f : Field) => setBlock_get (s := s) u.addr
    (s.get u.addr .next) (s.get u.addr .size - n - 64) hap htm hb f
  set r := Heap.cut a u.addr n s with hr
  have hplain : ∀ b ∈ addrs (pre ++ u :: post), ∀ f, f ≠ .owner → f ≠ .pad → f ≠ .size → f ≠ .prev →
      f ≠ .next → r.get b f = s.get b f := by
    intro b hb f h1 h2 h3 h4 h5
    have hbt : b ≠ t.addr := fun heq => hnt (heq ▸ hb)
    rw [(hget b (hsub hb)).2.2.1 f h1 h2, hblock b (hsub hb), if_neg hbt]
    simp only [h3, h4, h5, and_false, if_false]
  have htget : ∀ f, f ≠ .owner → f ≠ .pad → f ≠ .prev →
      r.get t.addr f = (s.setBlock t.addr (s.get u.addr .size - n - 64) u.addr
        (s.get u.addr .next)).get t.addr f := by
    intro f h1 h2 h3
    rw [(hget _ htm).2.2.1 f h1 h2]
    simp only [hut.symm, h3, false_and, and_false, if_false]
  have hhu := h.headers u (by simp)
  have hfrees : frees (pre ++ t :: post) = frees pre ++ t.addr :: frees post := by
    rw [frees_append, frees_cons_none htnone]
  have hclaimed := Arena.claimed (m := m) (a := a) (s := r) (u := ⟨u.addr, n, some l⟩) htiles
    (fun b hb => ?_) rfl
    ((hplain _ hu' .magic Field.ne Field.ne Field.ne Field.ne Field.ne).trans hhu.magic)
    (((hget _ hum).2.2.1 .size Field.ne Field.ne).trans (if_pos ⟨rfl, rfl⟩)) (fun b hb => ?_) ?_ ?_ ?_
  · refine ⟨hclaimed.1, Keeps.trans ?_ hclaimed.2⟩
    rw [← within_addrs]
    exact (hget _ hum).2.2.2.2
  · have hsz := h.sizes u (by simp)
    rw [List.mem_append, List.mem_cons, List.mem_cons] at hb
    rcases hb with hb | rfl | rfl | hb
    · exact h.sizes b (List.mem_append_left _ hb)
    · exact hn16
    · omega
    · exact h.sizes b (List.mem_append_right _ (List.mem_cons_of_mem _ hb))
  · rcases List.mem_cons.mp (List.perm_middle.subset hb) with rfl | hb
    · refine ⟨?_, ?_, fun _ => ⟨?_, ?_⟩, fun l' hl' => ?_⟩
      · rw [htget .magic Field.ne Field.ne Field.ne, hblock _ htm, if_pos rfl]
      · rw [htget .size Field.ne Field.ne Field.ne, hblock _ htm, if_pos rfl, hhu.size, htsize]
      · rw [htget .used Field.ne Field.ne Field.ne, hblock _ htm, if_pos rfl]
      · rw [htget .requested Field.ne Field.ne Field.ne, hblock _ htm, if_pos rfl]
      · rw [htnone] at hl'
        cases hl'
    · obtain ⟨hbmem, hbm, hbu⟩ := h.tiles.other hb
      have hbt : b.addr ≠ t.addr := fun heq => hnt (heq ▸ hbm)
      refine (h.headers b hbmem).relink (fun f hf1 hf2 hf3 hf4 => ?_) fun l' hl' => ?_
      · by_cases hfs : f = .size
        · rw [(hget _ (hsub hbm)).2.2.1 f hf3 hf4, hblock _ (hsub hbm), if_neg hbt]
          simp only [hbu, hf1, false_and, and_false, if_false]
        · exact hplain _ hbm f hf3 hf4 hfs hf1 hf2
      · rw [(hget _ (hsub hbm)).1, (hget _ (hsub hbm)).2.1, hspot.prev, hspot.next,
          (link_live (h.notMem_free hb hl').2 _).1, (link_live (h.notMem_free hb hl').1 _).2,
          Function.update_of_ne hbt, Function.update_of_ne hbt]
        exact ⟨rfl, rfl⟩
  · obtain ⟨hA, hB⟩ := seg_append.mp (hold ▸ h.chain)
    have hins := hA.insert hB (hold ▸ h.pos) (hold ▸ h.nodup) (hold ▸ hnt) (by omega)
    rw [List.getLastD_concat, ← hhs'] at hins
    refine hins.congr (fun y hy => ?_) fun y hy => ?_
    · rw [(hget y hy).2.2.1 .prev Field.ne Field.ne, hblock y hy, link_apply,
        Function.update_apply, hnext]
      simp only [reduceCtorEq, and_false, and_true, if_false]
    · rw [(hget y hy).2.2.1 .next Field.ne Field.ne, hblock y hy, link_apply,
        Function.update_apply, hnext]
      simp only [reduceCtorEq, and_false, and_true, if_false, hu0, ne_eq, not_false_eq_true, true_and]
  · obtain ⟨hA, -, -, hB⟩ := seg_append.mp (hspot.frees ▸ h.freeChain)
    have hins := hA.insert hB (x := t.addr) (fun h0 => h.pos (hspot.sub.subset h0))
      (hspot.sub.nodup h.nodup) (fun hmem => hnt (hspot.sub.subset hmem)) (by omega)
    rw [hfrees]
    have hmem : ∀ y ∈ frees pre ++ t.addr :: frees post, y ∈ hs := by
      intro y hy
      rcases List.mem_cons.mp (List.perm_middle.subset hy) with rfl | hy
      · exact htm
      · exact hsub (hspot.sub.subset hy)
    refine hins.congr (fun y hy => ?_) fun y hy => ?_
    · rw [(hget y (hmem y hy)).1, hspot.prev, hspot.next]
    · rw [(hget y (hmem y hy)).2.1, hspot.prev, hspot.next]
  · rw [(hget _ hum).2.2.2.1, hfrees]
    exact hspot.head h [t.addr]

/-- **A free block taken**, as it is or its first bytes. -/
theorem Arena.take (h : Arena m s a (pre ++ u :: post)) (hu : u.fits n = true) (l : Live)
    (hn16 : 16 ≤ n ∧ n % 16 = 0) :
    Arena m ((takeBlock a u.addr n s).claim u.addr l.requested l.owner l.pad) a
        (pre ++ u.taken n l :: (u.rest n ++ post)) ∧
      Keeps (headerWords (pre ++ u.taken n l :: (u.rest n ++ post))) a s
        ((takeBlock a u.addr n s).claim u.addr l.requested l.owner l.pad) := by
  obtain ⟨hlive, -⟩ := fits_iff.mp hu
  rw [takeBlock, (h.headers u (by simp)).size, Blk.taken, Blk.rest]
  by_cases hroom : n + 64 + 16 ≤ u.size
  · rw [if_pos hroom, if_pos hroom, if_pos hroom]
    exact h.cut hlive l hn16 hroom rfl
  · rw [if_neg hroom, if_neg hroom, if_neg hroom]
    exact h.whole hlive l

/-! ## The counts -/

variable {owners : Set ℕ} {bss : Fin 2 → List Blk} {o : ℕ}

theorem addUsed_eq (hlt : s.word (o + usedOff) + n < 2 ^ 64)
    (hcopy : ∀ f ∈ m.guestFibers, f.heapUsed ≠ o + usedOff) :
    (m.addUsed o n s).word (o + usedOff) = s.word (o + usedOff) + n ∧
      (∀ x ∉ countWords m o, (m.addUsed o n s).word x = s.word x) ∧
      (m.addUsed o n s).freeHeads = s.freeHeads := by
  rw [Machine.addUsed, Machine.syncGuestHeap, Nat.mod_eq_of_lt hlt]
  cases hf : m.fiberOf o with
  | none =>
    exact ⟨Function.update_self _ _ _,
      fun x hx => Function.update_of_ne (fun h => hx (Or.inl h)) _ _, rfl⟩
  | some f =>
    refine ⟨?_, fun x hx => ?_, rfl⟩
    · exact (Function.update_of_ne (hcopy f (mem_of_fiberOf hf)).symm _ _).trans
        (Function.update_self _ _ _)
    · refine (Function.update_of_ne (fun h => hx (Or.inr ⟨f, hf, h⟩)) _ _).trans ?_
      exact Function.update_of_ne (fun h => hx (Or.inl h)) _ _

theorem Arena.beside {a' : Fin 2} {ys : List Blk} (h : Arena m s a' ys) (h' : Arena m s' a bs)
    (hne : a' ≠ a) (hk : Keeps (headerWords bs) a s s') : Arena m s' a' ys := by
  refine h.frame (fun b hb f => get_keeps hk ?_) (hk.heads a' hne)
  refine (m.arenas_disjoint hne).mono (fun x hx => ?_) h'.headerWords_within
  exact h.headerWords_within ⟨b, hb, hx⟩

/-- Each count is kept outside of the arenas, or in a block in use. -/
def Homed (m : Machine) (owners : Set ℕ) (bs : Fin 2 → List Blk) : Prop :=
  ∀ o ∈ owners, ∀ a, o + usedOff ∈ Set.Ico (m.arenas a) (m.arenas a + arenaBytes a) →
    ∃ b ∈ lives (bs a), o + usedOff ∈ b.bytes

theorem Arena.bytes_apart (h : Arena m s a bs) (hu : u ∈ bs) (hx : x ∈ u.bytes) :
    x ∉ headerWords bs := by
  rintro ⟨v, hv, h3, h4⟩
  obtain ⟨h1, h2⟩ := hx
  by_cases huv : u = v
  · subst huv
    omega
  · have := h.tiles.disjoint hu hv huv
    rw [Blk.fin] at this h2
    rw [Blk.fin] at this
    omega

theorem Homed.apart (h : Homed m owners bss) (ho : o ∈ owners) (harena : Arena m s a (bss a)) :
    Disjoint (headerWords (bss a)) (countWords m o) := by
  rw [Set.disjoint_left]
  rintro x hx (rfl | ⟨f, hf, rfl⟩)
  · obtain ⟨b, hb, hxb⟩ := h o ho a (harena.headerWords_within hx)
    exact harena.bytes_apart (mem_lives.mp hb).1 hxb hx
  · exact m.heapUsed_outside (mem_of_fiberOf hf) a (harena.headerWords_within hx)

theorem lives_taken : lives (pre ++ u.taken n l :: (u.rest n ++ post)) =
    lives pre ++ u.taken n l :: lives post := by
  have hrest : lives (u.rest n) = [] := by
    rw [Blk.rest]
    split
    · rfl
    · rfl
  rw [lives_append, lives_cons_some rfl, lives_append, hrest, List.nil_append]

theorem Merged.take (h : Merged (pre ++ u :: post)) (hu : u.live = none) :
    Merged (pre ++ u.taken n l :: (u.rest n ++ post)) := by
  obtain ⟨h1, h2⟩ := List.isChain_split.mp h
  refine List.isChain_split.mpr ⟨Merged.concat_free h1 hu _, ?_⟩
  rw [Blk.rest]
  split
  · exact List.IsChain.cons_cons (Or.inl (Option.some_ne_none l)) (Merged.cons_free h2 hu _)
  · exact Merged.cons_free h2 hu _

/-- **A block taken keeps the heap sound.** -/
theorem Sound.take (h : Sound m owners s bss) (hh : Homed m owners bss)
    (hbs : bss a = pre ++ u :: post) (hu : u.fits n = true) (hn16 : 16 ≤ n ∧ n % 16 = 0)
    (ho : l.owner ∈ owners) {s1 : State}
    (hs1 : s1 = (takeBlock a u.addr n s).claim u.addr l.requested l.owner l.pad)
    {bss' : Fin 2 → List Blk}
    (hbs' : bss' = Function.update bss a (pre ++ u.taken n l :: (u.rest n ++ post))) :
    Sound m owners (m.addUsed l.owner (s1.get u.addr .size) s1) bss' ∧ Homed m owners bss' ∧
      ∀ x ∉ headerWords (bss' a), x ∉ countWords m l.owner →
        (m.addUsed l.owner (s1.get u.addr .size) s1).word x = s.word x := by
  have hnone := (fits_iff.mp hu).1
  have hself : bss' a = pre ++ u.taken n l :: (u.rest n ++ post) := by
    rw [hbs', Function.update_self]
  have hother : ∀ a' ≠ a, bss' a' = bss a' := fun a' ha => by rw [hbs', Function.update_of_ne ha]
  obtain ⟨hA, hk⟩ := (hbs ▸ h.arena a : Arena m s a (pre ++ u :: post)).take hu l hn16
  rw [← hs1, ← hself] at hA hk
  have hsize : s1.get u.addr .size = (u.taken n l).size :=
    (hA.headers (u.taken n l) (by rw [hself]; simp)).size
  have hold : lives (bss a) = lives pre ++ lives post := by
    rw [hbs, lives_append, lives_cons_none hnone]
  have hnew : lives (bss' a) = lives pre ++ u.taken n l :: lives post := by
    rw [hself, lives_taken]
  have hsub : ∀ a', lives (bss a') ⊆ lives (bss' a') := by
    rw [hbs', Function.forall_update_iff _ fun a' bs => lives (bss a') ⊆ lives bs, ← hself, hold, hnew]
    exact ⟨((List.sublist_cons_self _ _).append_left _).subset, fun _ _ => List.Subset.refl _⟩
  have hhome : Homed m owners bss' := fun o ho a' hx =>
    (hh o ho a' hx).imp fun b hb => ⟨hsub a' hb.1, hb.2⟩
  have harena : ∀ a', Arena m s1 a' (bss' a') := by
    rw [hbs', Function.forall_update_iff _ (Arena m s1)]
    exact ⟨hself ▸ hA, fun a' ha => (h.arena a').beside hA ha hk⟩
  have hmerged : ∀ a', Merged (bss' a') := by
    rw [hbs', Function.forall_update_iff _ fun _ => Merged]
    exact ⟨(hbs ▸ h.merged a : Merged (pre ++ u :: post)).take hnone, fun a' _ => h.merged a'⟩
  have hword : ∀ o ∈ owners, s1.word (o + usedOff) = s.word (o + usedOff) := fun o ho =>
    hk.words _ fun hx => Set.disjoint_left.mp (hhome.apart ho hA) hx (Or.inl rfl)
  have hused : ∀ o, usedBy o (bss' 0) + usedBy o (bss' 1) =
      usedBy o (bss 0) + usedBy o (bss 1) + if l.owner = o then (u.taken n l).size else 0 := by
    intro o
    have hsum := usedBy_update o bss a (bss' a)
    rw [show Function.update bss a (bss' a) = bss' by rw [hself, hbs']] at hsum
    have ha : usedBy o (bss' a) = usedBy o (bss a) + if l.owner = o then (u.taken n l).size else 0 := by
      have howned : (u.taken n l).ownedBy o = true ↔ l.owner = o := by
        rw [ownedBy_iff]
        exact ⟨fun ⟨_, h1, h2⟩ => by cases h1; exact h2, fun h => ⟨l, rfl, h⟩⟩
      rw [← usedBy_lives o (bss' a), ← usedBy_lives o (bss a), hold, hnew, usedBy_append, usedBy_append,
        usedBy_cons, if_congr howned rfl rfl]
      omega
    omega
  have hlt : s1.word (l.owner + usedOff) + (u.taken n l).size < 2 ^ 64 := by
    have := arenas_usedBy_lt harena l.owner
    rw [hused, if_pos rfl] at this
    rwa [hword _ ho, h.counts _ ho]
  obtain ⟨hcount, hwords, hheads⟩ := addUsed_eq hlt fun f hf => h.copiesApart f hf _ ho
  rw [hsize]
  refine ⟨⟨fun a' => ?_, hmerged, fun a' b hb l' hl' => ?_, fun o' ho' => ?_,
    fun o' ho' a' hx => ?_, h.copiesApart⟩, hhome, fun x hx hxc => ?_⟩
  · refine (harena a').frame (fun b hb f => hwords _ ?_) (congrFun hheads a')
    refine Set.disjoint_left.mp (hhome.apart ho (harena a')) ⟨b, hb, Nat.le_add_right _ _, ?_⟩
    have := f.offset_lt
    omega
  · by_cases ha : a' = a
    · subst ha
      have hmem : b ∈ lives (bss' a') := mem_lives.mpr ⟨hb, l', hl'⟩
      rw [hnew] at hmem
      rcases List.mem_cons.mp (List.perm_middle.subset hmem) with rfl | hmem
      · obtain rfl : l = l' := Option.some.inj hl'
        exact ho
      · exact h.owned a' b (mem_lives.mp (hold ▸ hmem)).1 l' hl'
    · exact h.owned a' b (hother a' ha ▸ hb) l' hl'
  · rw [hused]
    by_cases heq : l.owner = o'
    · rw [← heq, hcount, hword _ ho, h.counts _ ho, if_pos rfl]
    · rw [if_neg heq, Nat.add_zero, ← h.counts _ ho', ← hword _ ho']
      refine hwords _ ?_
      rintro (hx | ⟨f, hf, hx⟩)
      · exact heq (Nat.add_right_cancel hx).symm
      · exact h.copiesApart f (mem_of_fiberOf hf) o' ho' hx.symm
  · exact Set.disjoint_left.mp (hhome.apart ho' (harena a')) hx (Or.inl rfl)
  · rw [hwords x hxc, hk.words x hx]

/-! ## The function -/

theorem rounded_spec (count : ℕ) :
    (16 ≤ rounded count ∧ rounded count % 16 = 0) ∧ count ≤ rounded count := by
  rw [rounded]
  split
  · omega
  · omega

/-- **`arena_alloc`** takes the first block that fits of all, and fails if there is none. -/
theorem Sound.arenaAlloc {count : ℤ} {owner : ℕ} (pc : ℕ) (h : Sound m owners s bss)
    (hh : Homed m owners bss) (ho : owner ∈ owners) (ha : a = arenaFor s owner)
    (hlim : (bss a).length < limit) (hcount : 0 ≤ count ∧ count ≤ (dataBytes : ℤ))
    (hl : l = ⟨count.toNat, owner, pc⟩) :
    (∀ p ys, place (rounded count.toNat) l (bss a) = some (p, ys) → ∃ s',
      m.arenaAlloc limit count owner pc s = .ok (s', p + 64) ∧
        Sound m owners s' (Function.update bss a ys) ∧ Homed m owners (Function.update bss a ys) ∧
        ∀ x ∉ headerWords ys, x ∉ countWords m owner → s'.word x = s.word x) ∧
      (place (rounded count.toNat) l (bss a) = none →
        ∃ msg, m.arenaAlloc limit count owner pc s = .error (.fail msg)) := by
  set n := rounded count.toNat with hn
  have hloop := fitLoop_eq (n := n) (h.arena a).headers (h.arena a).pos (h.arena a).freeChain hlim
  rw [← (h.arena a).head] at hloop
  have hin : ¬(count < 0 ∨ (dataBytes : ℤ) < count) := by omega
  have hrun : ∀ b, fitLoop s n limit (s.freeHeads a) = .ok b →
      m.arenaAlloc limit count owner pc s = if b = 0 then
        .error (.fail (exhausted s a count n owner))
      else .ok (m.addUsed owner (((takeBlock a b n s).claim b count.toNat owner pc).get b .size)
        ((takeBlock a b n s).claim b count.toNat owner pc), b + 64) := by
    intro b hb
    rw [Machine.arenaAlloc, if_neg hin, ← ha, ← hn]
    dsimp only
    rw [hb]
    rfl
  rcases fits_cases n (bss a) with hnone | ⟨pre, u, post, hbs, hpre, hu⟩
  · rw [place_none hnone]
    have hfind : (bss a).find? (Blk.fits n) = none :=
      List.find?_eq_none.mpr fun b hb => by rw [hnone b hb]; exact Bool.false_ne_true
    rw [hfind] at hloop
    exact ⟨(fun _ _ h => by cases h), fun _ => ⟨_, (hrun 0 hloop).trans (if_pos rfl)⟩⟩
  · have hfind : (bss a).find? (Blk.fits n) = some u := by
      rw [hbs, List.find?_append, List.find?_eq_none.mpr fun b hb => by
        rw [hpre b hb]; exact Bool.false_ne_true, List.find?_cons_of_pos hu]
      rfl
    rw [hfind] at hloop
    have hu0 : u.addr ≠ 0 := fun h0 =>
      (h.arena a).pos (h0 ▸ mem_addrs.mpr ⟨u, by rw [hbs]; simp, rfl⟩)
    rw [hbs, place_append hpre hu]
    refine ⟨fun p ys hp => ?_, (fun h => by cases h)⟩
    obtain ⟨rfl, rfl⟩ := Prod.mk.inj (Option.some.inj hp)
    obtain ⟨h1, h2, h3⟩ := h.take hh hbs hu (rounded_spec _).1 (hl ▸ ho : l.owner ∈ owners) rfl rfl
    subst hl
    rw [Function.update_self] at h3
    exact ⟨_, (hrun _ hloop).trans (if_neg hu0), h1, h2, h3⟩

end ZealBringup.Heap
