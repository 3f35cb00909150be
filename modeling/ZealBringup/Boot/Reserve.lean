import Mathlib.Tactic.Common
import ZealBringup.Boot.MemoryMap

/-!
# The reservations

What each reservation takes out of the table.

* `allocPhysHhdm_place` — the kernel is placed as high as a usable entry has room for it.
* `Placed.carved` — the kernel is taken out, where the table has room.
* `handoffReservePtPool_carved`, `ArenaAt.carved` — the pool and the arena are taken out.
-/

namespace ZealBringup.Boot

open Regions Region
open ZealBringup.Fdt (ZealPi4Pcie uint64Max)

/-- So many bytes from `base` on. -/
def bytes (base n : ℕ) : Set ℕ := {a | base ≤ a ∧ a < base + n}

/-- The end of an entry, and its base rounded up to 64 KiB, are 64-bit numbers. -/
def NoWrap {τ : Type*} (e : Region τ) : Prop :=
  e.base + e.length < 2 ^ 64 ∧ e.base + 0xffff < 2 ^ 64

theorem u64_eq {n : ℕ} (h : n < 2 ^ 64) : u64 n = n := Nat.mod_eq_of_lt h

/-! ## The place of the kernel -/

/-- An entry has room for so many bytes, from where the kernel would start. -/
def RoomIn (size : ℕ) (e : LimineMemmapEntry) : Prop :=
  e.type = .usable ∧ kernelBase e 0x10000 < e.base + e.length ∧
    size ≤ e.base + e.length - kernelBase e 0x10000

/-- The highest start of the kernel in an entry that has room. -/
def KernelPlace (entries : List LimineMemmapEntry) (size kb : ℕ) : Prop :=
  (∃ e ∈ entries, RoomIn size e ∧ kb = kernelBase e 0x10000) ∧
    ∀ e ∈ entries, RoomIn size e → kernelBase e 0x10000 ≤ kb

variable {entries : List LimineMemmapEntry}

theorem KernelPlace.unique {size kb kb' : ℕ} (h : KernelPlace entries size kb)
    (h' : KernelPlace entries size kb') : kb = kb' := by
  obtain ⟨⟨e, he, hroom, rfl⟩, hmax⟩ := h
  obtain ⟨⟨e', he', hroom', rfl⟩, hmax'⟩ := h'
  exact le_antisymm (hmax' e he hroom) (hmax e' he' hroom')

variable {e : LimineMemmapEntry}

theorem le_kernelBase (h : NoWrap e) :
    e.base ≤ kernelBase e 0x10000 ∧ kernelBase e 0x10000 ≠ 0 := by
  obtain ⟨-, hbase⟩ := h
  unfold kernelBase alignUp u64
  split <;> omega

/-- The best place in some entries; 0 where there is none. -/
def BestPlace (entries : List LimineMemmapEntry) (size best : ℕ) : Prop :=
  best = 0 ∧ (∀ e ∈ entries, ¬RoomIn size e) ∨ KernelPlace entries size best

variable {seen : List LimineMemmapEntry} {best : ℕ}

/-- An entry that has no room, or no higher one. -/
theorem BestPlace.skip {size : ℕ} (h : BestPlace seen size best)
    (hskip : ¬RoomIn size e ∨ best ≠ 0 ∧ kernelBase e 0x10000 ≤ best) :
    BestPlace (seen ++ [e]) size best := by
  rcases h with ⟨rfl, hnone⟩ | ⟨⟨e', he', hroom, rfl⟩, hmax⟩
  · refine .inl ⟨rfl, fun x hx => ?_⟩
    rcases List.mem_append.1 hx with hx | hx
    · exact hnone x hx
    · obtain rfl := List.mem_singleton.1 hx
      exact hskip.resolve_right fun h => h.1 rfl
  · refine .inr ⟨⟨e', List.mem_append_left _ he', hroom, rfl⟩, fun x hx hroomx => ?_⟩
    rcases List.mem_append.1 hx with hx | hx
    · exact hmax x hx hroomx
    · obtain rfl := List.mem_singleton.1 hx
      rcases hskip with hno | ⟨-, hle⟩
      · exact absurd hroomx hno
      · exact hle

/-- An entry with a higher place. -/
theorem BestPlace.take {size : ℕ} (h : BestPlace seen size best) (hroom : RoomIn size e)
    (hhigher : best = 0 ∨ best ≤ kernelBase e 0x10000) :
    BestPlace (seen ++ [e]) size (kernelBase e 0x10000) := by
  refine .inr ⟨⟨e, List.mem_append_right _ (List.mem_singleton.2 rfl), hroom, rfl⟩,
    fun x hx hroomx => ?_⟩
  rcases List.mem_append.1 hx with hx | hx
  · rcases h with ⟨-, hnone⟩ | ⟨⟨e', he', hroom', rfl⟩, hmax⟩
    · exact absurd hroomx (hnone x hx)
    · rcases hhigher with h0 | hle
      · have hx0 := hmax x hx hroomx
        omega
      · exact (hmax x hx hroomx).trans hle
  · obtain rfl := List.mem_singleton.1 hx
    exact le_rfl

theorem allocLoop_best {size : ℕ} (hwrap : ∀ e ∈ seen ++ entries, NoWrap e)
    (hbest : BestPlace seen size best) :
    BestPlace (seen ++ entries) size (allocLoop size 0x10000 entries best) := by
  induction entries generalizing seen best with
  | nil => rwa [List.append_nil]
  | cons e entries ih =>
    have hsplit : seen ++ e :: entries = (seen ++ [e]) ++ entries := by simp
    obtain ⟨hstop, -⟩ := hwrap e (by simp)
    rw [hsplit] at hwrap ⊢
    unfold allocLoop
    rw [u64_eq hstop]
    by_cases htype : e.type ≠ .usable
    · rw [if_pos htype]
      exact ih hwrap (hbest.skip (.inl fun h => htype h.1))
    by_cases hend : kernelBase e 0x10000 ≥ e.base + e.length
    · rw [if_neg htype, if_pos hend]
      exact ih hwrap (hbest.skip (.inl fun h => absurd h.2.1 (not_lt.2 hend)))
    by_cases hroom : e.base + e.length - kernelBase e 0x10000 < size
    · rw [if_neg htype, if_neg hend, if_pos hroom]
      exact ih hwrap (hbest.skip (.inl fun h => absurd h.2.2 (not_le.2 hroom)))
    rw [if_neg htype, if_neg hend, if_neg hroom]
    have hin : RoomIn size e := ⟨not_not.1 htype, not_le.1 hend, not_lt.1 hroom⟩
    have hbest64 : best = 0 ∨ best + size < 2 ^ 64 := by
      rcases hbest with ⟨h0, -⟩ | ⟨⟨x, hx, ⟨-, hlt, hle⟩, rfl⟩, -⟩
      · exact .inl h0
      · have hx64 := (hwrap x (by simp [hx])).1
        right
        omega
    rw [u64_eq (by omega)]
    by_cases hhigher : kernelBase e 0x10000 + size > u64 (best + size) ∨ best = 0
    · rw [if_pos hhigher]
      refine ih hwrap (hbest.take hin ?_)
      rcases hhigher with hgt | h0
      · rcases hbest64 with h0 | hlt
        · exact .inl h0
        · rw [u64_eq hlt] at hgt
          right
          omega
      · exact .inl h0
    · rw [if_neg hhigher]
      obtain ⟨hgt, h0⟩ := not_or.1 hhigher
      rw [u64_eq (hbest64.resolve_left h0)] at hgt
      exact ih hwrap (hbest.skip (.inr ⟨h0, by omega⟩))

/-- **The kernel is placed** as high as a usable entry has room for it. -/
theorem allocPhysHhdm_place (hwrap : ∀ e ∈ entries, NoWrap e) {imageEnd kernelPhys kernelSize : ℕ}
    (h : allocPhysHhdm entries imageEnd 0x10000 = some (kernelPhys, kernelSize)) :
    kernelPhys ≠ 0 ∧ kernelSize = alignUp imageEnd 0x10000 ∧
      KernelPlace entries kernelSize kernelPhys := by
  have hnone : BestPlace [] (alignUp imageEnd 0x10000) 0 :=
    .inl ⟨rfl, fun e he => absurd he List.not_mem_nil⟩
  have hbest := allocLoop_best hwrap hnone
  unfold allocPhysHhdm at h
  dsimp only at h
  split_ifs at h with h0
  obtain ⟨rfl, rfl⟩ := Prod.mk.inj (Option.some.inj h)
  exact ⟨h0, rfl, hbest.resolve_left fun hnone => h0 hnone.1⟩

/-- The kernel lies inside a usable entry. -/
theorem KernelPlace.inside (hwrap : ∀ e ∈ entries, NoWrap e) {size kb : ℕ}
    (h : KernelPlace entries size kb) :
    ∃ e ∈ entries, e.type = .usable ∧ e.base ≤ kb ∧ kb + size ≤ e.base + e.length := by
  obtain ⟨⟨e, he, ⟨husable, hlt, hle⟩, rfl⟩, -⟩ := h
  exact ⟨e, he, husable, (le_kernelBase (hwrap e he)).1, by omega⟩

/-! ## One entry of the table -/

variable {i : ℕ}

theorem perm_getElem? {mem : List ZealMemEntry} {entry : ZealMemEntry} (h : mem[i]? = some entry) :
    mem.Perm (entry :: mem.eraseIdx i) := by
  obtain ⟨hi, rfl⟩ := List.getElem?_eq_some_iff.1 h
  exact (List.getElem_cons_eraseIdx_perm hi).symm

theorem set_perm {mem : List ZealMemEntry} {entry : ZealMemEntry} (h : mem[i]? = some entry)
    (x : ZealMemEntry) : (mem.set i x).Perm (x :: mem.eraseIdx i) :=
  List.set_perm_cons_eraseIdx (List.getElem?_eq_some_iff.1 h).1 x

/-- The entry with its place taken by some pieces, all but the first at the end of the table. -/
theorem set_append_perm {mem : List ZealMemEntry} {entry : ZealMemEntry}
    (h : mem[i]? = some entry) (x : ZealMemEntry) (added : List ZealMemEntry) :
    (mem.set i x ++ added).Perm (x :: added ++ mem.eraseIdx i) :=
  ((set_perm h x).append_right added).trans
    (.cons x List.perm_append_comm)

variable {taken : Set ℕ} {copied mem : List ZealMemEntry} {entry : ZealMemEntry}

/-- A usable entry with a part of it under another type: what is before it, the part itself and what
is behind it. -/
def around (entry : ZealMemEntry) (base n : ℕ) (type : ZealMemType) : List ZealMemEntry :=
  (if entry.base < base then [⟨entry.base, base - entry.base, .usable⟩] else []) ++ ⟨base, n, type⟩ ::
    (if base + n < entry.base + entry.length then
      [⟨base + n, entry.base + entry.length - (base + n), .usable⟩] else [])

variable {base : ℕ}

/-- A part taken out of one usable entry. -/
theorem carve {n : ℕ} {type : ZealMemType} {rest new : List ZealMemEntry}
    (h : Carved .usable taken copied mem) (hcopied : copied.Pairwise Apart)
    (hmem : mem.Perm (entry :: rest)) (husable : entry.type = .usable) (htype : type ≠ .usable)
    (hbase : entry.base ≤ base) (hend : base + n ≤ entry.base + entry.length)
    (hnew : new.Perm (around entry base n type ++ rest)) :
    Carved .usable (taken ∪ bytes base n) copied new := by
  refine h.split hcopied hmem husable ?_ (fun a ha => ⟨hbase.trans ha.1, lt_of_lt_of_le ha.2 hend⟩) ?_ hnew
  · unfold around
    refine ⟨?_, ?_, fun a ha => ?_⟩
    · split_ifs <;> simp [Apart] <;> omega
    · split_ifs <;> simp [Within] <;> omega
    · simp only [Has] at ha
      by_cases hlow : a < base
      · exact ⟨⟨entry.base, base - entry.base, .usable⟩,
          List.mem_append_left _ (by rw [if_pos (by omega)]; exact List.mem_cons_self ..),
          ha.1, by dsimp only; omega⟩
      by_cases hhigh : a < base + n
      · exact ⟨⟨base, n, type⟩, List.mem_append_right _ (List.mem_cons_self ..),
          not_lt.1 hlow, hhigh⟩
      · exact ⟨⟨base + n, entry.base + entry.length - (base + n), .usable⟩,
          List.mem_append_right _ (List.mem_cons_of_mem _
            (by rw [if_pos (by omega)]; exact List.mem_cons_self ..)),
          by dsimp only; omega, by dsimp only; omega⟩
  · intro p hp
    rcases List.mem_append.1 hp with hp | hp
    · split_ifs at hp with hlow
      · obtain rfl := List.mem_singleton.1 hp
        refine .inl ⟨rfl, fun a ha hb => ?_⟩
        obtain ⟨⟨-, hlt⟩, ⟨hle, -⟩⟩ := ha, hb
        dsimp only at hlt
        omega
      · exact absurd hp List.not_mem_nil
    · rcases List.mem_cons.1 hp with rfl | hp
      · exact .inr ⟨htype, fun a ha => ha⟩
      · split_ifs at hp with hhigh
        · obtain rfl := List.mem_singleton.1 hp
          refine .inl ⟨rfl, fun a ha hb => ?_⟩
          obtain ⟨⟨hle, -⟩, ⟨-, hlt⟩⟩ := ha, hb
          dsimp only at hle
          omega
        · exact absurd hp List.not_mem_nil

/-- No end of an entry wraps after some addresses are taken. -/
theorem stop_lt_of_carved (h : Carved .usable taken copied mem)
    (hwrap : ∀ e ∈ copied, e.base + e.length < 2 ^ 64) (he : entry ∈ mem) :
    entry.base + entry.length < 2 ^ 64 := by
  obtain ⟨r, hr, hwithin, -⟩ := h.part entry he
  exact lt_of_le_of_lt hwithin.2 (hwrap r hr)

/-! ## The kernel -/

/-- The loop of `handoff_reserve_kernel` passes over an entry. -/
def Passes (kb ke : ℕ) (entry : ZealMemEntry) : Prop :=
  entry.base + entry.length < 2 ^ 64 ∧
    (entry.type = .usable → ke ≤ entry.base ∨ entry.base + entry.length ≤ kb)

variable {kb ke size : ℕ}

theorem reserveKernelStep_passes (h : Passes kb ke entry) (mem : List ZealMemEntry) (i : ℕ) :
    reserveKernelStep kb ke size mem i entry = (mem, false) := by
  obtain ⟨hstop, hpass⟩ := h
  unfold reserveKernelStep
  dsimp only
  rw [u64_eq hstop]
  by_cases husable : entry.type = .usable
  · rw [if_neg (not_not.2 husable), if_pos (hpass husable)]
  · rw [if_pos husable]

theorem reserveKernelLoop_full (h : ¬mem.length < zealMemMax) (left i : ℕ) :
    reserveKernelLoop kb ke size left i mem = (mem, false) := by
  cases left with
  | zero => rfl
  | succ left => rw [reserveKernelLoop, if_neg h]

theorem reserveKernelLoop_passes {mid : List ZealMemEntry} (h : ∀ e ∈ mid, Passes kb ke e)
    (size : ℕ) (pre post : List ZealMemEntry) (left : ℕ) :
    reserveKernelLoop kb ke size (mid.length + left) pre.length (pre ++ mid ++ post) =
      reserveKernelLoop kb ke size left (pre ++ mid).length (pre ++ mid ++ post) := by
  by_cases hroom : (pre ++ mid ++ post).length < zealMemMax
  · induction mid generalizing pre with
    | nil => rw [List.append_nil, List.length_nil, Nat.zero_add]
    | cons e mid ih =>
      have hget : (pre ++ e :: mid ++ post)[pre.length]? = some e := by simp
      have hsplit : pre ++ e :: mid = (pre ++ [e]) ++ mid := by simp
      rw [List.length_cons, Nat.add_right_comm, reserveKernelLoop, if_pos hroom, hget]
      dsimp only
      rw [reserveKernelStep_passes (h e (List.mem_cons_self ..))]
      dsimp only
      rw [hsplit] at hroom ⊢
      have hrest := ih (fun x hx => h x (List.mem_cons_of_mem _ hx)) (pre ++ [e]) hroom
      have hlen : (pre ++ [e]).length = pre.length + 1 := by simp
      rwa [hlen] at hrest
  · rw [reserveKernelLoop_full hroom, reserveKernelLoop_full hroom]

variable {added : List ZealMemEntry} {x : ZealMemEntry}

/-- The loop does what its body does at the one entry that it does not pass over. -/
theorem reserveKernelLoop_at {pre post : List ZealMemEntry} {done : Bool}
    (hpre : ∀ e ∈ pre, Passes kb ke e) (hpost : ∀ e ∈ post, Passes kb ke e)
    (hroom : (pre ++ entry :: post).length < zealMemMax)
    (hstep : reserveKernelStep kb ke size (pre ++ entry :: post) pre.length entry = (pre ++ x :: post ++ added, done)) :
    
    reserveKernelLoop kb ke size (pre ++ entry :: post).length 0 (pre ++ entry :: post) =
      (pre ++ x :: post ++ added, done) := by
  have hfirst := reserveKernelLoop_passes hpre size [] (entry :: post) (post.length + 1)
  have hget : (pre ++ entry :: post)[pre.length]? = some entry := by simp
  rw [List.nil_append, List.length_nil] at hfirst
  rw [List.length_append, List.length_cons, hfirst, reserveKernelLoop, if_pos hroom, hget]
  dsimp only
  rw [hstep]
  cases done with
  | true => rfl
  | false =>
    have hlast := reserveKernelLoop_passes hpost size (pre ++ [x]) added 0
    simp only [List.append_assoc, List.singleton_append, List.length_append, List.length_singleton,
      Nat.add_zero] at hlast ⊢
    rw [hlast]
    rfl

/-- A table with the kernel image inside one usable entry. -/
structure Placed (pre post : List ZealMemEntry) (entry : ZealMemEntry) (kernelPhys kernelSize : ℕ) :
    Prop where
  apart : (pre ++ entry :: post).Pairwise Apart
  stop_lt : ∀ e ∈ pre ++ entry :: post, e.base + e.length < 2 ^ 64
  usable : entry.type = .usable
  base_le : entry.base ≤ kernelPhys
  le_stop : kernelPhys + kernelSize ≤ entry.base + entry.length
  phys_ne : kernelPhys ≠ 0
  size_ne : kernelSize ≠ 0

variable {pre post : List ZealMemEntry} {kernelPhys kernelSize : ℕ}

theorem Placed.perm (pre post : List ZealMemEntry) (entry : ZealMemEntry) :
    (pre ++ entry :: post).Perm (entry :: (pre ++ post)) := List.perm_middle

/-- The loop passes over all other entries. -/
theorem Placed.passes (h : Placed pre post entry kernelPhys kernelSize) :
    ∀ e ∈ pre ++ post, Passes kernelPhys (kernelPhys + kernelSize) e := by
  intro e he
  have hperm := Placed.perm pre post entry
  obtain ⟨hapart, -⟩ := List.pairwise_cons.1 ((pairwise_apart_perm hperm).1 h.apart)
  refine ⟨h.stop_lt e (hperm.mem_iff.2 (List.mem_cons_of_mem _ he)), fun _ => ?_⟩
  have hbase := h.base_le
  have hstop := h.le_stop
  have hother := hapart e he
  simp only [Apart] at hother
  omega

theorem Placed.loop_at (h : Placed pre post entry kernelPhys kernelSize) {done : Bool}
    (hroom : (pre ++ entry :: post).length < zealMemMax)
    (hstep : reserveKernelStep kernelPhys (kernelPhys + kernelSize) kernelSize (pre ++ entry :: post) pre.length entry = ((pre ++ entry :: post).set pre.length x ++ added, done)) :
    
    handoffReserveKernel kernelPhys kernelSize (pre ++ entry :: post) =
      if done = true then pre ++ x :: post ++ added
      else if (pre ++ x :: post ++ added).length < zealMemMax then
        pre ++ x :: post ++ added ++ [⟨kernelPhys, kernelSize, .kernel⟩]
      else pre ++ x :: post ++ added := by
  have hset : (pre ++ entry :: post).set pre.length x = pre ++ x :: post := by simp
  have hpasses := h.passes
  have hke : u64 (kernelPhys + kernelSize) = kernelPhys + kernelSize :=
    u64_eq (lt_of_le_of_lt h.le_stop (h.stop_lt entry (by simp)))
  rw [hset] at hstep
  rw [handoffReserveKernel, if_neg (by
      rintro (h0 | h0 | h0)
      · exact h.phys_ne h0
      · exact h.size_ne h0
      · omega), hke,
    reserveKernelLoop_at (fun e he => hpasses e (List.mem_append_left _ he))
      (fun e he => hpasses e (List.mem_append_right _ he)) hroom hstep]
  cases done with
  | true => rfl
  | false => rfl

theorem placed_perm {pieces : List ZealMemEntry} (h : (x :: added).Perm pieces) :
    (pre ++ x :: post ++ added).Perm (pieces ++ (pre ++ post)) :=
  calc (pre ++ x :: post ++ added).Perm (x :: (pre ++ post) ++ added) :=
        (Placed.perm pre post x).append_right added
    _ = x :: ((pre ++ post) ++ added) := rfl
    List.Perm _ (x :: (added ++ (pre ++ post))) := .cons x List.perm_append_comm
    List.Perm _ (pieces ++ (pre ++ post)) := h.append_right (pre ++ post)

/-- **The kernel is taken out**, where the table has room: two more entries, or one where the image
begins or ends with its entry. -/
theorem Placed.carved (h : Placed pre post entry kernelPhys kernelSize)
    (hroom : (pre ++ entry :: post).length ≤ 254 ∨ (pre ++ entry :: post).length = 255 ∧
      (entry.base = kernelPhys ∨ entry.base + entry.length = kernelPhys + kernelSize)) :
    Carved .usable (bytes kernelPhys kernelSize) (pre ++ entry :: post)
      (handoffReserveKernel kernelPhys kernelSize (pre ++ entry :: post)) := by
  have hmax : zealMemMax = 256 := rfl
  have husable := h.usable
  have hbase := h.base_le
  have hstop := h.le_stop
  have hsize := h.size_ne
  have hwrap := u64_eq (h.stop_lt entry (by simp))
  have hstart : Carved .usable ∅ (pre ++ entry :: post) (pre ++ entry :: post) :=
    .refl h.apart fun _ _ _ _ => Set.notMem_empty _
  have hcarve := fun new (hnew : List.Perm new (around entry kernelPhys kernelSize .kernel ++
    (pre ++ post))) => carve hstart h.apart (Placed.perm pre post entry) husable
      (show ZealMemType.kernel ≠ .usable by decide) hbase hstop hnew
  rw [Set.empty_union] at hcarve
  have hlength : ∀ (x : ZealMemEntry) added, (pre ++ x :: post ++ added).length =
      (pre ++ entry :: post).length + added.length := fun x added => by
    simp only [List.length_append, List.length_cons]
  by_cases hlow : entry.base < kernelPhys
  · by_cases hhigh : kernelPhys + kernelSize < entry.base + entry.length
    · -- usable | kernel | usable
      have hspace : (pre ++ entry :: post).length + 1 < zealMemMax := by omega
      have hstep : reserveKernelStep kernelPhys (kernelPhys + kernelSize) kernelSize
          (pre ++ entry :: post) pre.length entry =
            ((pre ++ entry :: post).set pre.length
                { entry with length := kernelPhys - entry.base } ++
              [⟨kernelPhys + kernelSize,
                entry.base + entry.length - (kernelPhys + kernelSize), .usable⟩], false) := by
        unfold reserveKernelStep
        dsimp only
        rw [hwrap, if_neg (not_not.2 husable), if_neg (by omega), if_pos ⟨hlow, hhigh, hspace⟩]
      rw [h.loop_at (by omega) hstep, if_neg (by decide), if_pos (by rw [hlength]; exact hspace),
        List.append_assoc]
      refine hcarve _ (placed_perm ?_)
      rw [around, if_pos hlow, if_pos hhigh, husable]
      exact .cons _ (.swap ..)
    · -- usable | kernel
      have hstep : reserveKernelStep kernelPhys (kernelPhys + kernelSize) kernelSize
          (pre ++ entry :: post) pre.length entry =
            ((pre ++ entry :: post).set pre.length
              { entry with length := kernelPhys - entry.base } ++ [], false) := by
        unfold reserveKernelStep
        dsimp only
        rw [hwrap, if_neg (not_not.2 husable), if_neg (by omega), if_neg (by omega),
          if_pos (by omega), List.append_nil]
      rw [h.loop_at (by omega) hstep, if_neg (by decide),
        if_pos (by rw [hlength]; dsimp only [List.length_nil]; omega), List.append_assoc]
      refine hcarve _ (placed_perm ?_)
      rw [around, if_pos hlow, if_neg hhigh, husable]
      exact .refl _
  · by_cases hhigh : kernelPhys + kernelSize < entry.base + entry.length
    · -- kernel | usable
      have hstep : reserveKernelStep kernelPhys (kernelPhys + kernelSize) kernelSize
          (pre ++ entry :: post) pre.length entry =
            ((pre ++ entry :: post).set pre.length { entry with
                base := kernelPhys + kernelSize
                length := entry.base + entry.length - (kernelPhys + kernelSize) } ++ [], false) := by
        unfold reserveKernelStep
        dsimp only
        rw [hwrap, if_neg (not_not.2 husable), if_neg (by omega), if_neg (by omega),
          if_neg (by omega), if_pos (by omega), List.append_nil]
      rw [h.loop_at (by omega) hstep, if_neg (by decide),
        if_pos (by rw [hlength]; dsimp only [List.length_nil]; omega), List.append_assoc]
      refine hcarve _ (placed_perm ?_)
      rw [around, if_neg hlow, if_pos hhigh, husable]
      exact .swap ..
    · -- the entry is the kernel
      have hstep : reserveKernelStep kernelPhys (kernelPhys + kernelSize) kernelSize
          (pre ++ entry :: post) pre.length entry =
            ((pre ++ entry :: post).set pre.length ⟨kernelPhys, kernelSize, .kernel⟩ ++ [],
              true) := by
        unfold reserveKernelStep
        dsimp only
        rw [hwrap, if_neg (not_not.2 husable), if_neg (by omega), if_neg (by omega),
          if_neg (by omega), if_neg (by omega), if_pos (by omega), List.append_nil]
      rw [h.loop_at (by omega) hstep, if_pos rfl]
      refine hcarve _ (placed_perm ?_)
      rw [around, if_neg hlow, if_neg hhigh]
      exact .refl _

/-- With 255 entries, an image that neither begins nor ends with its entry is only added: the entry
stays as it is. -/
theorem Placed.overlapped (h : Placed pre post entry kernelPhys kernelSize)
    (hfull : (pre ++ entry :: post).length = 255) (hbase : entry.base ≠ kernelPhys)
    (hstop : entry.base + entry.length ≠ kernelPhys + kernelSize) :
    handoffReserveKernel kernelPhys kernelSize (pre ++ entry :: post) =
      pre ++ entry :: post ++ [⟨kernelPhys, kernelSize, .kernel⟩] := by
  have hmax : zealMemMax = 256 := rfl
  have hle := h.base_le
  have hle' := h.le_stop
  have hsize := h.size_ne
  have hwrap := u64_eq (h.stop_lt entry (by simp))
  have hset : (pre ++ entry :: post).set pre.length entry = pre ++ entry :: post := by simp
  have hstep : reserveKernelStep kernelPhys (kernelPhys + kernelSize) kernelSize
      (pre ++ entry :: post) pre.length entry =
        ((pre ++ entry :: post).set pre.length entry ++ [], false) := by
    unfold reserveKernelStep
    dsimp only
    rw [hwrap, if_neg (not_not.2 h.usable), if_neg (by omega), if_neg (by omega),
      if_neg (by omega), if_neg (by omega), if_neg (by omega), hset, List.append_nil]
  rw [h.loop_at (by omega) hstep, if_neg (by decide), List.append_nil, if_pos (by omega)]

/-! ## The page-table pool -/

/-- Where the pool fits: behind the first page of a usable entry, with room in the table. -/
theorem ptPoolEnd_some {count poolEnd : ℕ} (hstop : entry.base + entry.length < 2 ^ 64)
    (h : ptPoolEnd count entry = some poolEnd) :
    entry.type = .usable ∧ entry.base + 4096 + poolSize ≤ poolEnd ∧
      poolEnd ≤ entry.base + entry.length ∧
      count + (if poolEnd < entry.base + entry.length then 2 else 1) ≤ zealMemMax := by
  have hsize : poolSize = 32768 := rfl
  unfold ptPoolEnd at h
  dsimp only at h
  rw [u64_eq hstop] at h
  by_cases hskip : entry.type ≠ .usable ∨ entry.length < poolSize + 4096
  · rw [if_pos hskip] at h
    cases h
  obtain ⟨husable, hlength⟩ := not_or.1 hskip
  have hbase : u64 ((entry.base + entry.length) / 4096 * 4096 + 2 ^ 64 - poolSize) =
      (entry.base + entry.length) / 4096 * 4096 - poolSize := by
    unfold u64
    omega
  rw [if_neg hskip, if_neg (by omega), hbase, u64_eq (by omega)] at h
  by_cases hroom : (entry.base + entry.length) / 4096 * 4096 - poolSize < entry.base + 4096 ∨
      count + (if (entry.base + entry.length) / 4096 * 4096 < entry.base + entry.length
        then 2 else 1) > zealMemMax
  · rw [if_pos hroom] at h
    cases h
  · rw [if_neg hroom] at h
    obtain ⟨hlow, hcount⟩ := not_or.1 hroom
    obtain rfl := Option.some.inj h
    exact ⟨not_not.1 husable, by omega, by omega, not_lt.1 hcount⟩

variable {mem' : List ZealMemEntry}

theorem ptPoolLoop_carved (h : Carved .usable taken copied mem) (hcopied : copied.Pairwise Apart)
    (hwrap : ∀ e ∈ mem, e.base + e.length < 2 ^ 64) {left : ℕ}
    (hpool : ptPoolLoop mem left i = some (base, mem')) :
    Carved .usable (taken ∪ bytes base poolSize) copied mem' ∧ mem'.length ≤ zealMemMax := by
  induction left generalizing i with
  | zero => cases hpool
  | succ left ih =>
    rw [ptPoolLoop] at hpool
    cases hentry : mem[i]? with
    | none =>
      rw [hentry] at hpool
      cases hpool
    | some entry =>
      rw [hentry] at hpool
      dsimp only at hpool
      cases hend : ptPoolEnd mem.length entry with
      | none =>
        rw [hend] at hpool
        exact ih hpool
      | some poolEnd =>
        rw [hend] at hpool
        dsimp only at hpool
        obtain ⟨rfl, rfl⟩ := Prod.mk.inj (Option.some.inj hpool)
        have hstop := hwrap entry (List.mem_of_getElem? hentry)
        have hsize : poolSize = 32768 := rfl
        obtain ⟨husable, hlow, hhigh, hcount⟩ := ptPoolEnd_some hstop hend
        have hbase : u64 (poolEnd + 2 ^ 64 - poolSize) = poolEnd - poolSize := by
          unfold u64
          omega
        have hend' : poolEnd - poolSize + poolSize = poolEnd := by omega
        rw [u64_eq hstop, hbase]
        have hcarve := fun new (hnew : List.Perm new (around entry (poolEnd - poolSize) poolSize
          .pagetable ++ mem.eraseIdx i)) =>
            carve h hcopied (perm_getElem? hentry) husable (show ZealMemType.pagetable ≠ .usable by decide)
              (by omega) (by omega) hnew
        unfold around at hcarve
        rw [if_pos (by omega), hend'] at hcarve
        by_cases htail : poolEnd < entry.base + entry.length
        · rw [if_pos htail] at hcarve hcount ⊢
          rw [List.append_assoc]
          refine ⟨hcarve _ ?_, ?_⟩
          · rw [← husable]
            exact set_append_perm hentry _ _
          · simp only [List.length_append, List.length_set, List.length_singleton]
            omega
        · rw [if_neg htail] at hcarve hcount ⊢
          refine ⟨hcarve _ ?_, ?_⟩
          · rw [← husable]
            exact set_append_perm hentry _ _
          · simp only [List.length_append, List.length_set, List.length_singleton]
            omega

/-- **The pool is taken out** of a usable entry. -/
theorem handoffReservePtPool_carved (h : Carved .usable taken copied mem)
    (hcopied : copied.Pairwise Apart) (hwrap : ∀ e ∈ copied, e.base + e.length < 2 ^ 64)
    (hpool : handoffReservePtPool mem = some (base, mem')) :
    Carved .usable (taken ∪ bytes base poolSize) copied mem' ∧ mem'.length ≤ zealMemMax :=
  ptPoolLoop_carved h hcopied (fun _ he => stop_lt_of_carved h hwrap he) hpool

theorem ptPoolLoop_full (hfull : mem.length = zealMemMax) (left i : ℕ) :
    ptPoolLoop mem left i = none := by
  induction left generalizing i with
  | zero => rfl
  | succ left ih =>
    rw [ptPoolLoop]
    cases mem[i]? with
    | none => rfl
    | some entry =>
      have hnone : ptPoolEnd mem.length entry = none := by
        unfold ptPoolEnd
        dsimp only
        split_ifs <;> first | rfl | omega
      dsimp only
      rw [hnone]
      exact ih (i + 1)

/-- A full table has no room for a pool. -/
theorem handoffReservePtPool_full (hfull : mem.length = zealMemMax) :
    handoffReservePtPool mem = none := ptPoolLoop_full hfull _ _

/-! ## The DMA arena -/

variable {pcie : ZealPi4Pcie}

/-- What an arena in an entry is: aligned, inside the entry and inside the window on both sides. -/
theorem dmaArenaIn_some {bus : ℕ} (h : dmaArenaIn pcie entry = some (base, bus)) :
    entry.type = .usable ∧ entry.base ≤ base ∧
      base + pi4UsbDmaArenaBytes ≤ entry.base + entry.length ∧ base % pi4UsbDmaArenaAlign = 0 ∧
      pcie.dmaCpuBase ≤ base ∧ base + pi4UsbDmaArenaBytes ≤ pcie.dmaCpuBase + pcie.dmaSize ∧
      bus = pcie.dmaBusBase + (base - pcie.dmaCpuBase) ∧
      bus + pi4UsbDmaArenaBytes ≤ pcie.dmaBusBase + pcie.dmaSize := by
  have halign : pi4UsbDmaArenaAlign = 65536 := rfl
  unfold dmaArenaIn at h
  dsimp only at h
  have hlow : entry.base ≤ arenaLow pcie entry ∧ pcie.dmaCpuBase ≤ arenaLow pcie entry := by
    unfold arenaLow
    omega
  split_ifs at h with h1 h2 h3 h4 h5 h6
  obtain ⟨rfl, rfl⟩ := Prod.mk.inj (Option.some.inj h)
  obtain ⟨husable, -⟩ := not_or.1 h1
  rw [halign] at h4 h6 ⊢
  refine ⟨not_not.1 husable, ?_, ?_, ?_, ?_, ?_, rfl, ?_⟩ <;> omega

theorem arenaTaken_perm (hentry : mem[i]? = some entry) (husable : entry.type = .usable) :
    (arenaTaken mem i entry base).Perm
      (around entry base pi4UsbDmaArenaBytes .usbDma ++ mem.eraseIdx i) := by
  unfold arenaTaken around
  dsimp only
  by_cases hlow : entry.base < base
  · rw [if_pos hlow, if_pos hlow]
    by_cases hhigh : base + pi4UsbDmaArenaBytes < entry.base + entry.length
    · rw [if_pos hhigh, if_pos hhigh, List.append_assoc, ← husable]
      exact set_append_perm hentry _ _
    · rw [if_neg hhigh, if_neg hhigh, ← husable]
      exact set_append_perm hentry _ _
  · rw [if_neg hlow, if_neg hlow]
    by_cases hhigh : base + pi4UsbDmaArenaBytes < entry.base + entry.length
    · rw [if_pos hhigh, if_pos hhigh]
      exact set_append_perm hentry _ _
    · rw [if_neg hhigh, if_neg hhigh]
      exact set_perm hentry _

/-- What the arena is taken from: the first entry that has room for it. -/
structure ArenaAt (pcie : ZealPi4Pcie) (mem : List ZealMemEntry) (mem' : List ZealMemEntry)
    (dma : ZealPi4Dma) (i : ℕ) (entry : ZealMemEntry) : Prop where
  get : mem[i]? = some entry
  first : ∀ k < i, ∀ e, mem[k]? = some e → dmaArenaIn pcie e = none
  fits : dmaArenaIn pcie entry = some (dma.physBase, dma.busBase)
  extra : arenaExtra entry dma.physBase ≤ zealMemMax - mem.length
  table : mem' = arenaTaken mem i entry dma.physBase
  flags : dma.flags = pi4UsbDmaReserved
  size : dma.size = pi4UsbDmaArenaBytes

variable {dma : ZealPi4Dma}

theorem dmaLoop_ok {left : ℕ}
    (hbefore : ∀ k < i, ∀ e, mem[k]? = some e → dmaArenaIn pcie e = none)
    (h : dmaLoop pcie mem left i = .ok (mem', dma)) :
    ∃ j entry, ArenaAt pcie mem mem' dma j entry := by
  induction left generalizing i with
  | zero => cases h
  | succ left ih =>
    rw [dmaLoop] at h
    cases hentry : mem[i]? with
    | none =>
      rw [hentry] at h
      cases h
    | some entry =>
      rw [hentry] at h
      dsimp only at h
      cases harena : dmaArenaIn pcie entry with
      | none =>
        rw [harena] at h
        refine ih (fun k hk e he => ?_) h
        rcases Nat.lt_succ_iff_lt_or_eq.1 hk with hk | rfl
        · exact hbefore k hk e he
        · rw [hentry] at he
          obtain rfl := Option.some.inj he
          exact harena
      | some arena =>
        obtain ⟨base, bus⟩ := arena
        rw [harena] at h
        dsimp only at h
        by_cases hextra : arenaExtra entry base > zealMemMax - mem.length
        · rw [if_pos hextra] at h
          cases h
        · rw [if_neg hextra] at h
          obtain ⟨rfl, rfl⟩ := Prod.mk.inj (Except.ok.inj h)
          exact ⟨i, entry, hentry, hbefore, harena, not_lt.1 hextra, rfl, rfl, rfl⟩

theorem pi4UsbDmaReserve_ok {dma' : ZealPi4Dma}
    (h : pi4UsbDmaReserve pcie dma mem = .ok (mem', dma')) :
    dmaWindowGiven pcie dma ∧ ∃ i entry, ArenaAt pcie mem mem' dma' i entry := by
  unfold pi4UsbDmaReserve at h
  by_cases hbad : mem.length > zealMemMax ∨ ¬dmaWindowGiven pcie dma
  · rw [if_pos hbad] at h
    cases h
  · rw [if_neg hbad] at h
    exact ⟨not_not.1 (not_or.1 hbad).2, dmaLoop_ok (fun k hk => absurd hk (Nat.not_lt_zero k)) h⟩

/-- **The arena is taken out** of a usable entry. -/
theorem ArenaAt.carved (harena : ArenaAt pcie mem mem' dma i entry)
    (h : Carved .usable taken copied mem) (hcopied : copied.Pairwise Apart) :
    Carved .usable (taken ∪ bytes dma.physBase dma.size) copied mem' := by
  obtain ⟨husable, hbase, hstop, -⟩ := dmaArenaIn_some harena.fits
  rw [harena.size]
  refine carve h hcopied (perm_getElem? harena.get) husable (show ZealMemType.usbDma ≠ .usable by decide) hbase
    hstop ?_
  rw [harena.table]
  exact arenaTaken_perm harena.get husable

end ZealBringup.Boot
