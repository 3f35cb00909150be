import Mathlib
import ZealBringup.Heap.Blocks

/-!
# Blocks given back

`release` marks a block as free, puts it in the free list and merges it with the free blocks on
both sides of it.  Each of these steps is a step on the list of blocks.

* `Arena.insertLoop` — where the walk along the free list stops.
* `Arena.freed` — a block joins the free blocks.
* `Arena.absorb` — a free block takes the free block behind it in.
-/

namespace ZealBringup.Heap

open Links

variable {m : Machine} {s : State} {a : Fin 2} {hs : List ℕ} {x y b prev next : ℕ}

/-! ## The free list -/

/-- What `free_list_remove` leaves of the links of the other blocks. -/
theorem freeListRemove_get (hap : Apart hs) (hy : y ∈ hs) (hp : freePrev s y = 0 ∨ freePrev s y ∈ hs)
    (hn : freeNext s y = 0 ∨ freeNext s y ∈ hs) (hb : b ∈ hs) :
    (b ≠ y → (freeListRemove a y s).get b .owner =
        link (s.get · .owner) (freeNext s y) (freePrev s y) b ∧
      (freeListRemove a y s).get b .pad = link (s.get · .pad) (freePrev s y) (freeNext s y) b) ∧
    ∀ f, f ≠ .owner → f ≠ .pad → (freeListRemove a y s).get b f = s.get b f := by
  have heq : ∀ f, (freeListRemove a y s).get b f = if b = y ∧ f = .pad then 0 else
      if b = y ∧ f = .owner then 0 else
      if (freeNext s y ≠ 0 ∧ b = freeNext s y) ∧ f = .owner then freePrev s y else
      if (freePrev s y ≠ 0 ∧ b = freePrev s y) ∧ f = .pad then freeNext s y else s.get b f := by
    intro f
    rw [freeListRemove, get_set hap hb hy, get_set hap hb hy, get_link hap hb hn, get_linkOrHead,
      get_link hap hb hp]
  refine ⟨fun hby => ⟨?_, ?_⟩, fun f hfo hfp => ?_⟩
  · simp only [heq, hby, reduceCtorEq, and_true, and_false, if_false, link_apply]
  · simp only [heq, hby, reduceCtorEq, and_true, and_false, if_false, link_apply]
  · simp only [heq, hfo, hfp, and_false, if_false]

theorem freeListRemove_head :
    (freeListRemove a y s).freeHeads a = if freePrev s y = 0 then freeNext s y else s.freeHeads a := by
  rw [freeListRemove]
  show ((s.linkOrHead a (freePrev s y) .pad (freeNext s y)).link (freeNext s y) .owner
    (freePrev s y)).freeHeads a = _
  rw [freeHeads_link, freeHeads_linkOrHead]
  split
  · exact Function.update_self _ _ _
  · rfl

theorem freeListRemove_keeps (hy : y ∈ hs) (hp : freePrev s y = 0 ∨ freePrev s y ∈ hs)
    (hn : freeNext s y = 0 ∨ freeNext s y ∈ hs) :
    Keeps (within hs) a s (freeListRemove a y s) :=
  (((Keeps.linkOrHead hp).trans (Keeps.link hn)).trans (Keeps.set hy)).trans (Keeps.set hy)

/-- What an insertion between two blocks of the free list leaves. -/
theorem insert_get (hap : Apart hs) (hx : x ∈ hs) (hp : prev = 0 ∨ prev ∈ hs)
    (hn : next = 0 ∨ next ∈ hs) (hb : b ∈ hs) {s' : State}
    (hs' : s' = (((s.set x .owner prev).set x .pad next).linkOrHead a prev .pad x).link next .owner x) :
    s'.get b .owner = link (Function.update (s.get · .owner) x prev) next x b ∧
      s'.get b .pad = link (Function.update (s.get · .pad) x next) prev x b ∧
      (∀ f, f ≠ .owner → f ≠ .pad → s'.get b f = s.get b f) ∧
      s'.freeHeads a = (if prev = 0 then x else s.freeHeads a) ∧ Keeps (within hs) a s s' := by
  have heq : ∀ f, s'.get b f = if (next ≠ 0 ∧ b = next) ∧ f = .owner then x else
      if (prev ≠ 0 ∧ b = prev) ∧ f = .pad then x else
      if b = x ∧ f = .pad then next else if b = x ∧ f = .owner then prev else s.get b f := by
    intro f
    rw [hs', get_link hap hb hn, get_linkOrHead, get_link hap hb hp, get_set hap hb hx,
      get_set hap hb hx]
  refine ⟨?_, ?_, fun f hfo hfp => ?_, ?_, ?_⟩
  · simp only [heq, reduceCtorEq, and_true, and_false, if_false, link_apply, Function.update_apply]
  · simp only [heq, reduceCtorEq, and_true, and_false, if_false, link_apply, Function.update_apply]
  · simp only [heq, hfo, hfp, and_false, if_false]
  · rw [hs', freeHeads_link, freeHeads_linkOrHead]
    split
    · exact Function.update_self _ _ _
    · rfl
  · rw [hs']
    exact (((Keeps.set hx).trans (Keeps.set hx)).trans (Keeps.linkOrHead hp)).trans (Keeps.link hn)

/-- The walk goes past every block before the address. -/
theorem insertLoop_eq {A B : List ℕ} {p q address limit : ℕ}
    (hseg : Seg (s.get · .owner) (s.get · .pad) q (A ++ B) 0) (hA : ∀ c ∈ A, c ≠ 0 ∧ c < address)
    (hB : ∀ c ∈ B, address ≤ c) (hlim : A.length < limit) :
    insertLoop s address limit p ((A ++ B).headD 0) = .ok (A.getLastD p, B.headD 0) := by
  induction A generalizing p q limit with
  | nil =>
    obtain _ | limit := limit
    · exact absurd hlim (Nat.not_lt_zero _)
    rw [insertLoop, if_neg]
    · rfl
    · rintro ⟨h0, hlt⟩
      cases B with
      | nil => exact h0 rfl
      | cons c B => exact absurd (hB c List.mem_cons_self) (Nat.not_le.mpr hlt)
  | cons c A ih =>
    obtain _ | limit := limit
    · exact absurd hlim (Nat.not_lt_zero _)
    obtain ⟨-, hnext, htail⟩ := hseg
    have hc := hA c List.mem_cons_self
    rw [List.getLastD_cons]
    show insertLoop s address (limit + 1) p c = _
    rw [insertLoop, if_pos hc]
    have hnext' : freeNext s c = (A ++ B).headD 0 := hnext
    rw [hnext']
    exact ih htail (fun d hd => hA d (List.mem_cons_of_mem _ hd)) (Nat.lt_of_succ_lt_succ hlim)

variable {pre post : List Blk} {u v : Blk} {l : Live} {limit : ℕ}

theorem mem_or_zero {A : List ℕ} (h : A ⊆ hs) :
    (A.headD 0 = 0 ∨ A.headD 0 ∈ hs) ∧ (A.getLastD 0 = 0 ∨ A.getLastD 0 ∈ hs) :=
  ⟨(headD_eq A).imp id fun hm => h hm, (getLastD_eq A).imp id fun hm => h hm⟩

/-- The ends of a piece of the free list are not in use. -/
theorem link_live {f : ℕ → ℕ} {A : List ℕ} (h : b ∉ A) (v : ℕ) :
    link f (A.headD 0) v b = f b ∧ link f (A.getLastD 0) v b = f b := by
  constructor
  · rw [link_apply, if_neg]
    rintro ⟨h0, rfl⟩
    exact h ((headD_eq A).resolve_left h0)
  · rw [link_apply, if_neg]
    rintro ⟨h0, rfl⟩
    exact h ((getLastD_eq A).resolve_left h0)

/-- A block without an owner. -/
def Blk.freed (u : Blk) : Blk := { u with live := none }

@[simp] theorem Blk.freed_addr (u : Blk) : u.freed.addr = u.addr := rfl

@[simp] theorem Blk.freed_size (u : Blk) : u.freed.size = u.size := rfl

@[simp] theorem Blk.freed_live (u : Blk) : u.freed.live = none := rfl

@[simp] theorem Blk.freed_fin (u : Blk) : u.freed.fin = u.fin := rfl

theorem clear_get (hap : Apart hs) (hx : x ∈ hs) (hb : b ∈ hs) (f : Field) :
    (s.clear x).get b f =
      if b = x ∧ (f = .used ∨ f = .owner ∨ f = .requested ∨ f = .pad) then 0 else s.get b f := by
  rw [State.clear, get_set hap hb hx, get_set hap hb hx, get_set hap hb hx, get_set hap hb hx]
  by_cases hbx : b = x
  · subst hbx
    cases f <;> simp
  · simp only [hbx, false_and, if_false]

theorem clear_keeps (hx : x ∈ hs) : Keeps (within hs) a s (s.clear x) :=
  (((Keeps.set hx).trans (Keeps.set hx)).trans (Keeps.set hx)).trans (Keeps.set hx)

/-- **A block joins the free blocks**, at its place in the free list. -/
theorem Arena.freed (h : Arena m s a (pre ++ u :: post)) (hu : u.live = some l)
    (hlim : (frees pre).length < limit) :
    ∃ s', freeListInsert limit a u.addr (s.clear u.addr) = .ok s' ∧
      Arena m s' a (pre ++ u.freed :: post) ∧ Keeps (headerWords (pre ++ u :: post)) a s s' := by
  set hs := addrs (pre ++ u :: post) with hhs
  have hap : Apart hs := h.apart
  have hmem : ∀ b ∈ pre ++ u :: post, b.addr ∈ hs := fun b hb => mem_addrs.mpr ⟨b, hb, rfl⟩
  have hum : u.addr ∈ hs := hmem u (by simp)
  have hu0 : u.addr ≠ 0 := fun h0 => h.pos (h0 ▸ hum)
  have haddrs : addrs (pre ++ u.freed :: post) = hs := by
    rw [hhs, addrs_append, addrs_append, addrs_cons, addrs_cons, Blk.freed_addr]
  have hfrees : frees (pre ++ u :: post) = frees pre ++ frees post := by
    rw [frees_append, frees_cons_some hu]
  have hfreed : frees (pre ++ u.freed :: post) = frees pre ++ u.addr :: frees post := by
    rw [frees_append, frees_cons_none u.freed_live, Blk.freed_addr]
  have hnu : u.addr ∉ frees pre ++ frees post := hfrees ▸ h.notMem_frees (by simp) hu
  have hsub : (frees pre ++ frees post).Sublist hs := hfrees ▸ frees_sublist _
  set r := s.clear u.addr with hr
  have hclear := fun (b : ℕ) (hb : b ∈ hs) => clear_get (s := s) hap hum hb
  -- the free list is as before, and the walk stops around the block
  have hsort := h.tiles.sorted
  rw [List.pairwise_append] at hsort
  obtain ⟨-, hsort2, hsort1⟩ := hsort
  rw [List.pairwise_cons] at hsort2
  have hkeep : ∀ y ∈ frees pre ++ frees post, ∀ f, r.get y f = s.get y f := by
    intro y hy f
    rw [hr, hclear y (hsub.subset hy), if_neg]
    rintro ⟨rfl, -⟩
    exact hnu hy
  have hseg : Seg (r.get · .owner) (r.get · .pad) 0 (frees pre ++ frees post) 0 := by
    refine (hfrees ▸ h.freeChain).congr (fun y hy => ?_) fun y hy => ?_
    · exact hkeep y hy .owner
    · exact hkeep y hy .pad
  have hloop : insertLoop r u.addr limit 0 (r.freeHeads a) =
      .ok ((frees pre).getLastD 0, (frees post).headD 0) := by
    have hhead : r.freeHeads a = (frees pre ++ frees post).headD 0 := hfrees ▸ h.head
    rw [hhead]
    refine insertLoop_eq hseg (fun c hc => ?_) (fun c hc => ?_) hlim
    · refine ⟨fun h0 => h.pos (hsub.subset (h0 ▸ List.mem_append_left _ hc)), ?_⟩
      obtain ⟨b, hb, -, rfl⟩ := mem_frees.mp hc
      have := hsort1 b hb u List.mem_cons_self
      rw [Blk.fin] at this
      omega
    · obtain ⟨b, hb, -, rfl⟩ := mem_frees.mp hc
      have := hsort2.1 b hb
      rw [Blk.fin] at this
      omega
  have hp : (frees pre).getLastD 0 = 0 ∨ (frees pre).getLastD 0 ∈ hs :=
    (mem_or_zero fun y hy => hsub.subset (List.mem_append_left _ hy)).2
  have hn : (frees post).headD 0 = 0 ∨ (frees post).headD 0 ∈ hs :=
    (mem_or_zero fun y hy => hsub.subset (List.mem_append_right _ hy)).1
  obtain ⟨s', hs'⟩ : ∃ s', s' = (((r.set u.addr .owner ((frees pre).getLastD 0)).set u.addr .pad
      ((frees post).headD 0)).linkOrHead a ((frees pre).getLastD 0) .pad u.addr).link
        ((frees post).headD 0) .owner u.addr := ⟨_, rfl⟩
  have hget := fun (b : ℕ) (hb : b ∈ hs) => insert_get hap hum hp hn hb hs'
  have hrun : freeListInsert limit a u.addr r = .ok s' := by
    rw [freeListInsert, hloop, hs']
    rfl
  -- what the two steps leave of the other words
  have hplain : ∀ b ∈ hs, ∀ f, f ≠ .owner → f ≠ .pad → f ≠ .used → f ≠ .requested →
      s'.get b f = s.get b f := by
    intro b hb f h1 h2 h3 h4
    rw [(hget b hb).2.2.1 f h1 h2, hclear b hb, if_neg]
    rintro ⟨-, hh | hh | hh | hh⟩
    exacts [h3 hh, h1 hh, h4 hh, h2 hh]
  have hother : ∀ b ∈ pre ++ u :: post, b.addr ≠ u.addr → Header s' b := by
    intro b hb hbu
    have hbm := hmem b hb
    have hkept : ∀ f, r.get b.addr f = s.get b.addr f := fun f => by
      rw [hr, hclear b.addr hbm, if_neg fun hh => hbu hh.1]
    refine (h.headers b hb).relink (fun f _ _ hf3 hf4 => ?_) fun l' hl' => ?_
    · rw [(hget b.addr hbm).2.2.1 f hf3 hf4, hkept]
    · have hnf := hfrees ▸ h.notMem_frees hb hl'
      rw [List.mem_append, not_or] at hnf
      rw [(hget b.addr hbm).1, (hget b.addr hbm).2.1, (link_live hnf.2 _).1, (link_live hnf.1 _).2,
        Function.update_of_ne hbu, Function.update_of_ne hbu]
      exact ⟨hkept .owner, hkept .pad⟩
  obtain ⟨k, ht1, ht2, ht3⟩ := tiles_append.mp h.tiles
  refine ⟨s', hrun, ⟨?_, ?_, ?_, ?_, ?_, ?_⟩, ?_⟩
  · exact tiles_append.mpr ⟨k, ht1, ht2, ht3⟩
  · intro b hb
    rcases List.mem_append.mp hb with hb | hb
    · exact h.sizes b (List.mem_append_left _ hb)
    rcases List.mem_cons.mp hb with rfl | hb
    · exact h.sizes u (by simp)
    · exact h.sizes b (by simp [hb])
  · intro b hb
    have hnd := h.nodup
    rw [addrs_append, addrs_cons] at hnd
    obtain ⟨-, hndrest, hndx⟩ := List.nodup_append.mp hnd
    rw [List.nodup_cons] at hndrest
    rcases List.mem_append.mp hb with hb | hb
    · exact hother b (List.mem_append_left _ hb)
        (hndx _ (mem_addrs.mpr ⟨b, hb, rfl⟩) _ List.mem_cons_self)
    rcases List.mem_cons.mp hb with rfl | hb
    · have hhu := h.headers u (by simp)
      refine ⟨?_, ?_, fun _ => ⟨?_, ?_⟩, fun l hl => by cases hl⟩
      · rw [Blk.freed_addr, hplain _ hum .magic Field.ne Field.ne Field.ne Field.ne, hhu.magic]
      · rw [Blk.freed_addr, hplain _ hum .size Field.ne Field.ne Field.ne Field.ne, hhu.size, Blk.freed_size]
      · rw [Blk.freed_addr, (hget _ hum).2.2.1 .used Field.ne Field.ne, hclear _ hum, if_pos ⟨rfl, by simp⟩]
      · rw [Blk.freed_addr, (hget _ hum).2.2.1 .requested Field.ne Field.ne, hclear _ hum,
          if_pos ⟨rfl, by simp⟩]
    · refine hother b (by simp [hb]) fun heq => hndrest.1 ?_
      exact heq ▸ mem_addrs.mpr ⟨b, hb, rfl⟩
  · rw [haddrs]
    refine h.chain.congr (fun y hy => ?_) fun y hy => ?_
    · exact hplain y hy .prev Field.ne Field.ne Field.ne Field.ne
    · exact hplain y hy .next Field.ne Field.ne Field.ne Field.ne
  · obtain ⟨hA, hB⟩ := seg_append.mp hseg
    have hins := hA.insert hB (fun h0 => h.pos (hsub.subset h0)) (hsub.nodup h.nodup) hnu hu0
    have hmem' : ∀ y ∈ frees pre ++ u.addr :: frees post, y ∈ hs := fun y hy =>
      haddrs ▸ (frees_sublist _).subset (hfreed ▸ hy)
    rw [hfreed]
    exact hins.congr (fun y hy => (hget y (hmem' y hy)).1) fun y hy => (hget y (hmem' y hy)).2.1
  · have hhead : r.freeHeads a = (frees pre ++ frees post).headD 0 := hfrees ▸ h.head
    rw [(hget _ hum).2.2.2.1, hfreed, hhead]
    cases hpre : frees pre with
    | nil => rfl
    | cons y A =>
      refine if_neg fun h0 => h.pos (hsub.subset (List.mem_append_left _ ?_))
      rw [← h0, hpre]
      exact getLastD_mem y A
  · rw [← within_addrs]
    exact (clear_keeps hum).trans (hget _ hum).2.2.2.2

/-! ## Merging -/

/-- The stores of a merge, with what they read of the state before it. -/
theorem absorb_eq (hap : Apart hs) (hx : x ∈ hs) (hy : y ∈ hs)
    (hp : freePrev s y = 0 ∨ freePrev s y ∈ hs) (hn : freeNext s y = 0 ∨ freeNext s y ∈ hs) :
    absorb a x y s = (((((freeListRemove a y s).set x .size
      ((s.get x .size + (64 + s.get y .size)) % 2 ^ 64)).set x .next (s.get y .next)).set y .magic
        0).link (s.get y .next) .prev x) := by
  have hrm : ∀ c ∈ hs, ∀ f, f ≠ .owner → f ≠ .pad → (freeListRemove a y s).get c f = s.get c f :=
    fun c hc => (freeListRemove_get hap hy hp hn hc).2
  set r := freeListRemove a y s
  have h1 : (r.get x .size + (64 + r.get y .size)) % 2 ^ 64 =
      (s.get x .size + (64 + s.get y .size)) % 2 ^ 64 := by
    rw [hrm x hx .size Field.ne Field.ne, hrm y hy .size Field.ne Field.ne]
  set n := (s.get x .size + (64 + s.get y .size)) % 2 ^ 64
  have h2 : (r.set x .size n).get y .next = s.get y .next := by
    simp only [get_set hap hy hx, reduceCtorEq, and_false, if_false, hrm y hy .next Field.ne Field.ne]
  have h3 : (((r.set x .size n).set x .next (s.get y .next)).set y .magic 0).get x .next =
      s.get y .next := by
    simp only [get_set hap hx hy, get_set hap hx hx, reduceCtorEq, and_false, if_false, and_self,
      if_true]
  show (((r.set x .size _).set x .next _).set y .magic 0).link _ .prev x = _
  rw [h1, h2, h3]

/-- A free block with the one behind it. -/
def Blk.join (u v : Blk) : Blk := { u with size := u.size + 64 + v.size }

@[simp] theorem Blk.join_addr (u v : Blk) : (u.join v).addr = u.addr := rfl

@[simp] theorem Blk.join_size (u v : Blk) : (u.join v).size = u.size + 64 + v.size := rfl

@[simp] theorem Blk.join_live (u v : Blk) : (u.join v).live = u.live := rfl

/-- What a merge leaves of the other words. -/
theorem absorb_get (hap : Apart hs) (hx : x ∈ hs) (hy : y ∈ hs)
    (hp : freePrev s y = 0 ∨ freePrev s y ∈ hs) (hn : freeNext s y = 0 ∨ freeNext s y ∈ hs)
    (hnext : s.get y .next = 0 ∨ s.get y .next ∈ hs) (hb : b ∈ hs) :
    (∀ f, f ≠ .size → f ≠ .next → f ≠ .magic → f ≠ .prev →
        (absorb a x y s).get b f = (freeListRemove a y s).get b f) ∧
      (absorb a x y s).get b .size =
        (if b = x then (s.get x .size + (64 + s.get y .size)) % 2 ^ 64 else s.get b .size) ∧
      (absorb a x y s).get b .next = Function.update (s.get · .next) x (s.get y .next) b ∧
      (absorb a x y s).get b .prev = link (s.get · .prev) (s.get y .next) x b ∧
      (b ≠ y → (absorb a x y s).get b .magic = s.get b .magic) := by
  have hrm : ∀ f, f ≠ .owner → f ≠ .pad → (freeListRemove a y s).get b f = s.get b f :=
    (freeListRemove_get hap hy hp hn hb).2
  have hget : ∀ f, (absorb a x y s).get b f =
      if (s.get y .next ≠ 0 ∧ b = s.get y .next) ∧ f = .prev then x else
      if b = y ∧ f = .magic then 0 else if b = x ∧ f = .next then s.get y .next else
      if b = x ∧ f = .size then (s.get x .size + (64 + s.get y .size)) % 2 ^ 64
      else (freeListRemove a y s).get b f := by
    intro f
    rw [absorb_eq hap hx hy hp hn, get_link hap hb hnext, get_set hap hb hy, get_set hap hb hx, get_set hap hb hx]
  refine ⟨fun f h1 h2 h3 h4 => ?_, ?_, ?_, ?_, fun hby => ?_⟩
  · simp only [hget, h1, h2, h3, h4, and_false, if_false]
  · simp only [hget, reduceCtorEq, and_true, and_false, if_false, hrm .size Field.ne Field.ne]
  · simp only [hget, reduceCtorEq, and_true, and_false, if_false, hrm .next Field.ne Field.ne,
      Function.update_apply]
  · simp only [hget, reduceCtorEq, and_true, and_false, if_false, hrm .prev Field.ne Field.ne,
      link_apply]
  · simp only [hget, reduceCtorEq, hby, and_false, false_and, if_false, hrm .magic Field.ne Field.ne]

theorem absorb_head (a : Fin 2) (x y : ℕ) (s : State) :
    (absorb a x y s).freeHeads = (freeListRemove a y s).freeHeads := by
  rw [absorb]
  exact freeHeads_link

theorem absorb_keeps (hap : Apart hs) (hx : x ∈ hs) (hy : y ∈ hs)
    (hp : freePrev s y = 0 ∨ freePrev s y ∈ hs) (hn : freeNext s y = 0 ∨ freeNext s y ∈ hs)
    (hnext : s.get y .next = 0 ∨ s.get y .next ∈ hs) : Keeps (within hs) a s (absorb a x y s) := by
  rw [absorb_eq hap hx hy hp hn]
  exact ((((freeListRemove_keeps hy hp hn).trans (Keeps.set hx)).trans (Keeps.set hx)).trans
    (Keeps.set hy)).trans (Keeps.link hnext)

/-- **A merge.**  Of two free neighbours one is left. -/
theorem Arena.merge (h : Arena m s a (pre ++ u :: v :: post)) (hu : u.live = none)
    (hv : v.live = none) :
    Arena m (absorb a u.addr v.addr s) a (pre ++ u.join v :: post) ∧
      Keeps (headerWords (pre ++ u :: v :: post)) a s (absorb a u.addr v.addr s) := by
  set hs := addrs (pre ++ u :: v :: post) with hhs
  have hap : Apart hs := h.apart
  have hmem : ∀ b ∈ pre ++ u :: v :: post, b.addr ∈ hs := fun b hb => mem_addrs.mpr ⟨b, hb, rfl⟩
  have hum : u.addr ∈ hs := hmem u (by simp)
  have hvm : v.addr ∈ hs := hmem v (by simp)
  have hnd := h.nodup
  rw [addrs_append, addrs_cons, addrs_cons] at hnd
  obtain ⟨hndpre, hndrest, hndx⟩ := List.nodup_append.mp hnd
  rw [List.nodup_cons, List.nodup_cons, List.mem_cons, not_or] at hndrest
  obtain ⟨⟨huv, hupost⟩, hvpost, hndpost⟩ := hndrest
  have hu0 : u.addr ≠ 0 := fun h0 => h.pos (h0 ▸ hum)
  -- both chains, cut at the second block
  have hchain : Seg (s.get · .prev) (s.get · .next) 0 ((addrs pre ++ [u.addr]) ++ v.addr :: addrs post)
      0 := by
    have := h.chain
    rwa [addrs_append, addrs_cons, addrs_cons, List.append_cons] at this
  have hfree : Seg (s.get · .owner) (s.get · .pad) 0 ((frees pre ++ [u.addr]) ++ v.addr :: frees post)
      0 := by
    have := h.freeChain
    rwa [frees_append, frees_cons_none hu, frees_cons_none hv, List.append_cons] at this
  obtain ⟨-, hprev, hnext, -⟩ := seg_append.mp hfree
  obtain ⟨-, -, hcnext, -⟩ := seg_append.mp hchain
  rw [List.getLastD_concat] at hprev
  have hp : freePrev s v.addr = u.addr := hprev
  have hn : freeNext s v.addr = (frees post).headD 0 := hnext
  have hc : s.get v.addr .next = (addrs post).headD 0 := hcnext
  have hsub : ((addrs pre ++ [u.addr]) ++ addrs post).Sublist hs := by
    rw [hhs, addrs_append, addrs_cons, addrs_cons, List.append_assoc, List.singleton_append]
    exact ((List.sublist_cons_self _ _).cons_cons _).append_left _
  have hfsub : ((frees pre ++ [u.addr]) ++ frees post).Sublist hs :=
    (((frees_sublist pre).append_right _).append (frees_sublist post)).trans hsub
  have hpost : addrs post ⊆ hs := fun y hy => by
    rw [hhs, addrs_append, addrs_cons, addrs_cons]
    exact List.mem_append_right _ (List.mem_cons_of_mem _ (List.mem_cons_of_mem _ hy))
  have hpm : freePrev s v.addr = 0 ∨ freePrev s v.addr ∈ hs := Or.inr (hp ▸ hum)
  have hnm : freeNext s v.addr = 0 ∨ freeNext s v.addr ∈ hs :=
    hn ▸ (mem_or_zero fun y hy => hpost ((frees_sublist post).subset hy)).1
  have hcm : s.get v.addr .next = 0 ∨ s.get v.addr .next ∈ hs := hc ▸ (mem_or_zero hpost).1
  have hget := fun (b : ℕ) (hb : b ∈ hs) => absorb_get (a := a) hap hum hvm hpm hnm hcm hb
  have hrem := fun (b : ℕ) (hb : b ∈ hs) => freeListRemove_get (a := a) hap hvm hpm hnm hb
  have hnv : ∀ b ∈ addrs pre ++ u.addr :: addrs post, b ∈ hs ∧ b ≠ v.addr := by
    intro b hb
    rcases List.mem_append.mp hb with hb | hb
    · exact ⟨hhs ▸ addrs_append _ _ ▸ List.mem_append_left _ hb,
        hndx b hb v.addr (List.mem_cons_of_mem _ List.mem_cons_self)⟩
    rcases List.mem_cons.mp hb with rfl | hb
    · exact ⟨hum, huv⟩
    · exact ⟨hpost hb, fun heq => hvpost (heq ▸ hb)⟩
  have hother : ∀ b ∈ pre ++ u :: v :: post, b.addr ≠ u.addr → b.addr ≠ v.addr →
      Header (absorb a u.addr v.addr s) b := by
    intro b hb hbu hbv
    have hbm := hmem b hb
    obtain ⟨h1, h2, -, -, h5⟩ := hget b.addr hbm
    refine (h.headers b hb).relink (fun f hf1 hf2 hf3 hf4 => ?_) fun l hl => ?_
    · by_cases hfs : f = .size
      · rw [hfs, h2, if_neg hbu]
      by_cases hfm : f = .magic
      · rw [hfm, h5 hbv]
      · rw [h1 f hfs hf2 hfm hf1, (hrem b.addr hbm).2 f hf3 hf4]
    · have hnf := h.notMem_frees hb hl
      rw [frees_append, frees_cons_none hu, frees_cons_none hv] at hnf
      rw [h1 .owner Field.ne Field.ne Field.ne Field.ne, h1 .pad Field.ne Field.ne Field.ne Field.ne,
        ((hrem b.addr hbm).1 hbv).1, ((hrem b.addr hbm).1 hbv).2, hn, hp]
      refine ⟨(link_live (fun hmem => hnf ?_) _).1, ?_⟩
      · exact List.mem_append_right _ (List.mem_cons_of_mem _ (List.mem_cons_of_mem _ hmem))
      · rw [link_apply, if_neg fun hh => hbu hh.2]
  obtain ⟨k, ht1, rfl, htv, ht2⟩ := tiles_append.mp h.tiles
  have hfit := (h.tiles.within.2 v (by simp)).2
  have hfits := m.arenas_fit a
  refine ⟨⟨?_, ?_, ?_, ?_, ?_, ?_⟩, ?_⟩
  · refine tiles_append.mpr ⟨u.addr, ht1, rfl, ?_⟩
    have hfin : v.fin = (u.join v).fin := by
      show v.addr + 64 + v.size = u.addr + 64 + (u.size + 64 + v.size)
      rw [htv, Blk.fin]
      omega
    rwa [← hfin]
  · intro b hb
    have hus := h.sizes u (by simp)
    have hvs := h.sizes v (by simp)
    rcases List.mem_append.mp hb with hb | hb
    · exact h.sizes b (List.mem_append_left _ hb)
    rcases List.mem_cons.mp hb with rfl | hb
    · rw [Blk.join_size]
      omega
    · exact h.sizes b (by simp [hb])
  · intro b hb
    rcases List.mem_append.mp hb with hb | hb
    · have hba : b.addr ∈ addrs pre := mem_addrs.mpr ⟨b, hb, rfl⟩
      exact hother b (List.mem_append_left _ hb) (hndx _ hba _ List.mem_cons_self)
        (hndx _ hba _ (List.mem_cons_of_mem _ List.mem_cons_self))
    rcases List.mem_cons.mp hb with rfl | hb
    · obtain ⟨h1, h2, -, -, h5⟩ := hget u.addr hum
      have hhu := h.headers u (by simp)
      have hhv := h.headers v (by simp)
      refine ⟨?_, ?_, fun _ => ?_, fun l hl => ?_⟩
      · rw [Blk.join_addr, h5 huv, hhu.magic]
      · rw [Blk.join_addr, h2, if_pos rfl, Blk.join_size, hhu.size, hhv.size, Nat.mod_eq_of_lt, Nat.add_assoc]
        rw [Blk.fin, htv, Blk.fin] at hfit
        omega
      · rw [Blk.join_addr, h1 .used Field.ne Field.ne Field.ne Field.ne, h1 .requested Field.ne Field.ne Field.ne Field.ne,
          (hrem u.addr hum).2 .used Field.ne Field.ne, (hrem u.addr hum).2 .requested Field.ne Field.ne]
        exact hhu.free hu
      · rw [Blk.join_live, hu] at hl
        cases hl
    · have hba : b.addr ∈ addrs post := mem_addrs.mpr ⟨b, hb, rfl⟩
      exact hother b (by simp [hb]) (fun heq => hupost (heq ▸ hba)) fun heq => hvpost (heq ▸ hba)
  · have hseg := hchain.remove (fun h0 => h.pos (hsub.subset h0)) (hsub.nodup h.nodup)
    rw [addrs_append, addrs_cons]
    rw [List.append_assoc, List.singleton_append, List.getLastD_concat] at hseg
    refine hseg.congr (fun y hy => ?_) fun y hy => ?_
    · rw [(hget y (hnv y hy).1).2.2.2.1, hc]
    · rw [(hget y (hnv y hy).1).2.2.1, hc, Function.update_apply, link_apply]
      exact if_congr (and_iff_right hu0).symm rfl rfl
  · rw [frees_append, frees_cons_none (b := u.join v) hu]
    have hseg := hfree.remove (fun h0 => h.pos (hfsub.subset h0)) (hfsub.nodup h.nodup)
    rw [List.append_assoc, List.singleton_append, List.getLastD_concat] at hseg
    have hmem' : ∀ y ∈ frees pre ++ u.addr :: frees post, y ∈ addrs pre ++ u.addr :: addrs post :=
      fun y hy => ((frees_sublist pre).append ((frees_sublist post).cons_cons _)).subset hy
    refine hseg.congr (fun y hy => ?_) fun y hy => ?_
    · obtain ⟨hym, hyv⟩ := hnv y (hmem' y hy)
      rw [(hget y hym).1 .owner Field.ne Field.ne Field.ne Field.ne, ((hrem y hym).1 hyv).1, hn, hp]
    · obtain ⟨hym, hyv⟩ := hnv y (hmem' y hy)
      rw [(hget y hym).1 .pad Field.ne Field.ne Field.ne Field.ne, ((hrem y hym).1 hyv).2, hn, hp]
  · rw [absorb_head, freeListRemove_head, if_neg (hp ▸ hu0), h.head, frees_append, frees_append,
      frees_cons_none hu, frees_cons_none (b := u.join v) hu]
    cases frees pre with
    | nil => rfl
    | cons y A => rfl
  · rw [← within_addrs]
    exact absorb_keeps hap hum hvm hpm hnm hcm

/-! ## Both neighbours -/

/-- One of two neighbours is in use. -/
def Seam (u v : Blk) : Prop := u.live ≠ none ∨ v.live ≠ none

/-- No two free blocks are neighbours. -/
def Merged (bs : List Blk) : Prop := bs.IsChain Seam

/-- The blocks in use. -/
def lives (bs : List Blk) : List Blk := bs.filter fun b => b.live.isSome

@[simp] theorem lives_nil : lives [] = [] := rfl

@[simp] theorem lives_append (xs ys : List Blk) : lives (xs ++ ys) = lives xs ++ lives ys :=
  List.filter_append ..

theorem lives_cons_none (hu : u.live = none) (bs : List Blk) : lives (u :: bs) = lives bs :=
  List.filter_cons_of_neg (by rw [hu]; exact Bool.false_ne_true)

theorem lives_cons_some (hu : u.live = some l) (bs : List Blk) : lives (u :: bs) = u :: lives bs :=
  List.filter_cons_of_pos (by rw [hu]; rfl)

theorem mem_lives {bs : List Blk} : u ∈ lives bs ↔ u ∈ bs ∧ ∃ l, u.live = some l := by
  rw [lives, List.mem_filter, Option.isSome_iff_exists]

/-- Neighbours of a free block are in use. -/
theorem Merged.cons_free (h : Merged (u :: post)) (hu : u.live = none) (v : Blk) :
    Merged (v :: post) := by
  cases post with
  | nil => exact List.IsChain.singleton _
  | cons w post =>
    rw [Merged, List.isChain_cons_cons] at h ⊢
    exact ⟨Or.inr (h.1.resolve_left fun hne => hne hu), h.2⟩

theorem Merged.concat_free (h : Merged (pre ++ [u])) (hu : u.live = none) (v : Blk) :
    Merged (pre ++ [v]) := by
  rw [Merged, List.isChain_append] at h ⊢
  refine ⟨h.1, List.IsChain.singleton _, fun x hx y hy => Or.inl ?_⟩
  exact (h.2.2 x hx u rfl).resolve_right fun hne => hne hu

/-- What one of the two merges does, whether or not it happens. -/
structure Settles (m : Machine) (s s' : State) (a : Fin 2) (bs bs' : List Blk) : Prop where
  arena : Arena m s' a bs'
  keeps : Keeps (headerWords bs) a s s'
  fewer : (addrs bs').Sublist (addrs bs)
  lives : lives bs' = lives bs

theorem Arena.next_eq (h : Arena m s a (pre ++ u :: post)) : s.get u.addr .next = (addrs post).headD 0 := by
  have hchain := h.chain
  rw [addrs_append, addrs_cons] at hchain
  exact (seg_append.mp hchain).2.2.1

theorem Arena.prev_eq (h : Arena m s a (pre ++ u :: post)) :
    s.get u.addr .prev = (addrs pre).getLastD 0 := by
  have hchain := h.chain
  rw [addrs_append, addrs_cons] at hchain
  exact (seg_append.mp hchain).2.1

theorem Arena.used_eq (h : Arena m s a (pre ++ u :: post)) : s.get u.addr .used = 0 ↔ u.live = none := by
  have hu := h.headers u (by simp)
  cases hl : u.live with
  | none => exact iff_of_true (hu.free hl).1 rfl
  | some l =>
    refine iff_of_false (fun h0 => ?_) nofun
    rw [(hu.live l hl).1] at h0
    cases h0

/-- The block takes in a free successor. -/
theorem Arena.absorbNext (h : Arena m s a (pre ++ u :: post)) (hu : u.live = none) (hm : Merged post) :
    ∃ w post', w.addr = u.addr ∧ w.live = none ∧ Merged (w :: post') ∧ post'.length ≤ post.length ∧
      Heap.lives post' = Heap.lives post ∧ Settles m s (Heap.absorbNext a u.addr s) a (pre ++ u :: post) (pre ++ w :: post') := by
  cases post with
  | nil =>
    refine ⟨u, [], rfl, hu, List.IsChain.singleton _, le_rfl, rfl, ?_⟩
    have heq : Heap.absorbNext a u.addr s = s := by
      rw [Heap.absorbNext]
      exact if_neg fun hh => hh.1 h.next_eq
    rw [heq]
    exact ⟨h, Keeps.rfl, List.Sublist.refl _, rfl⟩
  | cons v post =>
    have hnext : s.get u.addr .next = v.addr := h.next_eq
    have hv0 : v.addr ≠ 0 := fun h0 => h.pos (h0 ▸ mem_addrs.mpr ⟨v, by simp, rfl⟩)
    have hused : s.get v.addr .used = 0 ↔ v.live = none := by
      have h' := h
      rw [List.append_cons] at h'
      exact h'.used_eq
    by_cases hv : v.live = none
    · refine ⟨u.join v, post, rfl, hu, hm.cons_free hv _, Nat.le_succ _, (lives_cons_none hv _).symm, ?_⟩
      have heq : Heap.absorbNext a u.addr s = absorb a u.addr v.addr s := by
        rw [Heap.absorbNext, hnext]
        exact if_pos ⟨hv0, hused.mpr hv⟩
      obtain ⟨h1, h2⟩ := h.merge hu hv
      rw [heq]
      refine ⟨h1, h2, ?_, ?_⟩
      · rw [addrs_append, addrs_append]
        exact ((List.sublist_cons_self _ _).cons_cons _).append_left _
      · rw [lives_append, lives_append, lives_cons_none (u := u.join v) hu, lives_cons_none hu,
          lives_cons_none hv]
    · refine ⟨u, v :: post, rfl, hu, List.IsChain.cons_cons (Or.inr hv) hm, le_rfl, rfl, ?_⟩
      have heq : Heap.absorbNext a u.addr s = s := by
        rw [Heap.absorbNext, hnext]
        exact if_neg fun hh => hv (hused.mp hh.2)
      rw [heq]
      exact ⟨h, Keeps.rfl, List.Sublist.refl _, rfl⟩

/-- A free predecessor takes the block in. -/
theorem Arena.absorbPrev (h : Arena m s a (pre ++ u :: post)) (hu : u.live = none) (hm : Merged pre)
    (hm' : Merged (u :: post)) :
    ∃ w pre', (Heap.absorbPrev a u.addr s).2 = w.addr ∧ w.live = none ∧ Merged (pre' ++ w :: post) ∧
      pre'.length ≤ pre.length ∧ Heap.lives pre' = Heap.lives pre ∧
      Settles m s (Heap.absorbPrev a u.addr s).1 a (pre ++ u :: post) (pre' ++ w :: post) := by
  rcases List.eq_nil_or_concat' pre with rfl | ⟨pre, p, rfl⟩
  · refine ⟨u, [], ?_, hu, hm', le_rfl, rfl, ?_⟩
    all_goals
      have heq : Heap.absorbPrev a u.addr s = (s, u.addr) := by
        rw [Heap.absorbPrev]
        exact if_neg fun hh => hh.1 h.prev_eq
      rw [heq]
    exact ⟨h, Keeps.rfl, List.Sublist.refl _, rfl⟩
  · have hprev : s.get u.addr .prev = p.addr := by
      rw [h.prev_eq, addrs_append]
      exact List.getLastD_concat
    have hp0 : p.addr ≠ 0 := fun h0 => h.pos (h0 ▸ mem_addrs.mpr ⟨p, by simp, rfl⟩)
    have h' : Arena m s a (pre ++ p :: u :: post) := by
      rw [List.append_cons]
      exact h
    by_cases hp : p.live = none
    · have heq : Heap.absorbPrev a u.addr s = (absorb a p.addr u.addr s, p.addr) := by
        rw [Heap.absorbPrev, hprev]
        exact if_pos ⟨hp0, h'.used_eq.mpr hp⟩
      obtain ⟨h1, h2⟩ := h'.merge hp hu
      rw [heq, ← List.append_cons]
      refine ⟨p.join u, pre, rfl, hp, ?_, ?_, ?_, ?_, h2, ?_, ?_⟩
      · exact List.isChain_split.mpr ⟨hm.concat_free hp _, hm'.cons_free hu _⟩
      · rw [List.length_append]
        exact Nat.le_add_right _ _
      · rw [lives_append, lives_cons_none hp, lives_nil, List.append_nil]
      · exact h1
      · rw [addrs_append, addrs_append]
        exact ((List.sublist_cons_self _ _).cons_cons _).append_left _
      · rw [lives_append, lives_append, lives_cons_none (u := p.join u) hp, lives_cons_none hp,
          lives_cons_none hu]
    · have heq : Heap.absorbPrev a u.addr s = (s, u.addr) := by
        rw [Heap.absorbPrev, hprev]
        exact if_neg fun hh => hp (h'.used_eq.mp hh.2)
      rw [heq]
      refine ⟨u, pre ++ [p], rfl, hu, ?_, le_rfl, rfl, h, Keeps.rfl, List.Sublist.refl _, rfl⟩
      rw [← List.append_cons]
      exact List.isChain_split.mpr ⟨hm, List.IsChain.cons_cons (Or.inl hp) hm'⟩

end ZealBringup.Heap
