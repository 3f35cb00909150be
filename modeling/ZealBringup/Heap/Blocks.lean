import Mathlib
import ZealBringup.Lib.Links
import ZealBringup.Heap.Arena

/-!
# The blocks of an arena

What the words of an arena stand for is a list of blocks in the order of their addresses, each of
them free or in use.  `Arena` says that the words and the list agree: the blocks cover the arena,
their headers say what the list says, and both chains run through the right blocks.

* `Tiles.apart` — headers do not overlap.
* `get_set`, `get_link` — one word written to a header.
* `Arena.frame` — an arena depends on nothing but the headers of its blocks.
-/

namespace ZealBringup.Heap

open Links

/-- What the header of a block in use adds: the size asked for, the owner and the place of the
call. -/
structure Live where
  requested : ℕ
  owner : ℕ
  pad : ℕ
  deriving DecidableEq, Repr

/-- A block by the address of its header. -/
structure Blk where
  addr : ℕ
  size : ℕ
  live : Option Live
  deriving DecidableEq, Repr

/-- Where the next header stands. -/
def Blk.fin (b : Blk) : ℕ := b.addr + 64 + b.size

/-- The words of the header. -/
def Blk.header (b : Blk) : Set ℕ := Set.Ico b.addr (b.addr + 64)

/-- The bytes of the block. -/
def Blk.bytes (b : Blk) : Set ℕ := Set.Ico (b.addr + 64) b.fin

/-- The addresses of blocks. -/
def addrs (bs : List Blk) : List ℕ := bs.map Blk.addr

/-- The addresses of the free blocks. -/
def frees (bs : List Blk) : List ℕ := addrs (bs.filter fun b => b.live.isNone)

/-- The words of the headers. -/
def headerWords (bs : List Blk) : Set ℕ := {x | ∃ b ∈ bs, x ∈ b.header}

/-- The blocks follow each other without gaps. -/
def Tiles : ℕ → List Blk → ℕ → Prop
  | i, [], j => i = j
  | i, b :: bs, j => b.addr = i ∧ Tiles b.fin bs j

@[simp] theorem addrs_nil : addrs [] = [] := rfl

@[simp] theorem addrs_cons (b : Blk) (bs : List Blk) : addrs (b :: bs) = b.addr :: addrs bs := rfl

@[simp] theorem addrs_append (xs ys : List Blk) : addrs (xs ++ ys) = addrs xs ++ addrs ys :=
  List.map_append

variable {x : ℕ}

theorem mem_addrs {bs : List Blk} : x ∈ addrs bs ↔ ∃ b ∈ bs, b.addr = x := List.mem_map

@[simp] theorem frees_nil : frees [] = [] := rfl

@[simp] theorem frees_append (xs ys : List Blk) : frees (xs ++ ys) = frees xs ++ frees ys := by
  rw [frees, List.filter_append, addrs_append]
  rfl

theorem frees_cons_none {b : Blk} (h : b.live = none) (bs : List Blk) :
    frees (b :: bs) = b.addr :: frees bs := by
  rw [frees, List.filter_cons_of_pos (by rw [h]; rfl)]
  rfl

theorem frees_cons_some {b : Blk} {l : Live} (h : b.live = some l) (bs : List Blk) :
    frees (b :: bs) = frees bs := by
  rw [frees, List.filter_cons_of_neg (by rw [h]; exact Bool.false_ne_true)]
  rfl

theorem frees_sublist (bs : List Blk) : (frees bs).Sublist (addrs bs) :=
  List.filter_sublist.map _

theorem mem_frees {bs : List Blk} : x ∈ frees bs ↔ ∃ b ∈ bs, b.live = none ∧ b.addr = x := by
  rw [frees, mem_addrs]
  simp only [List.mem_filter, Option.isNone_iff_eq_none, and_assoc]

/-! ## The order of the blocks -/

variable {i j : ℕ}

theorem tiles_append {xs ys : List Blk} :
    Tiles i (xs ++ ys) j ↔ ∃ k, Tiles i xs k ∧ Tiles k ys j := by
  induction xs generalizing i with
  | nil => exact ⟨fun h => ⟨i, rfl, h⟩, fun ⟨k, h1, h2⟩ => by cases h1; exact h2⟩
  | cons b xs ih =>
    constructor
    · rintro ⟨h1, h2⟩
      obtain ⟨k, hk1, hk2⟩ := ih.mp h2
      exact ⟨k, ⟨h1, hk1⟩, hk2⟩
    · rintro ⟨k, ⟨h1, hk1⟩, hk2⟩
      exact ⟨h1, ih.mpr ⟨k, hk1, hk2⟩⟩

theorem Tiles.within {bs : List Blk} (h : Tiles i bs j) :
    i ≤ j ∧ ∀ b ∈ bs, i ≤ b.addr ∧ b.fin ≤ j := by
  induction bs generalizing i with
  | nil => exact ⟨Nat.le_of_eq h, fun b hb => absurd hb List.not_mem_nil⟩
  | cons c bs ih =>
    obtain ⟨rfl, h2⟩ := h
    obtain ⟨hle, hmem⟩ := ih h2
    have hfin : c.addr ≤ c.fin := by rw [Blk.fin]; omega
    refine ⟨hfin.trans hle, fun b hb => ?_⟩
    rcases List.mem_cons.mp hb with rfl | hb
    · exact ⟨le_rfl, hle⟩
    · exact ⟨hfin.trans (hmem b hb).1, (hmem b hb).2⟩

/-- Each block ends before the next one begins. -/
theorem Tiles.sorted {bs : List Blk} (h : Tiles i bs j) :
    bs.Pairwise fun b c => b.fin ≤ c.addr := by
  induction bs generalizing i with
  | nil => exact List.Pairwise.nil
  | cons b bs ih =>
    obtain ⟨-, h2⟩ := h
    exact List.Pairwise.cons (fun c hc => (h2.within.2 c hc).1) (ih h2)

/-- Two blocks of an arena do not overlap. -/
theorem Tiles.disjoint {bs : List Blk} (h : Tiles i bs j) {b c : Blk} (hb : b ∈ bs) (hc : c ∈ bs)
    (hne : b ≠ c) : b.fin ≤ c.addr ∨ c.fin ≤ b.addr := by
  have hsymm : Std.Symm fun b c : Blk => b.fin ≤ c.addr ∨ c.fin ≤ b.addr := ⟨fun _ _ h => h.symm⟩
  have hpair : bs.Pairwise fun b c : Blk => b.fin ≤ c.addr ∨ c.fin ≤ b.addr := h.sorted.imp Or.inl
  exact hpair.forall hb hc hne

/-- **Headers do not overlap.** -/
theorem Tiles.apart {bs : List Blk} (h : Tiles i bs j) {y : ℕ} (hx : x ∈ addrs bs)
    (hy : y ∈ addrs bs) (hne : x ≠ y) : x + 64 ≤ y ∨ y + 64 ≤ x := by
  obtain ⟨b, hb, rfl⟩ := mem_addrs.mp hx
  obtain ⟨c, hc, rfl⟩ := mem_addrs.mp hy
  have hbc := h.disjoint hb hc fun heq => hne (congrArg Blk.addr heq)
  rw [Blk.fin, Blk.fin] at hbc
  omega

theorem Tiles.nodup {bs : List Blk} (h : Tiles i bs j) : (addrs bs).Nodup :=
  List.pairwise_map.mpr (h.sorted.imp fun {b c} hbc => by rw [Blk.fin] at hbc; omega)

/-! ## Words of headers -/

theorem Field.offset_lt (f : Field) : f.offset < 64 := by cases f <;> decide

theorem Field.offset_inj {f g : Field} (h : f.offset = g.offset) : f = g := by
  cases f <;> cases g <;> first | rfl | exact absurd h (by decide)

theorem Field.ne {f g : Field} (h : f.offset ≠ g.offset := by decide) : f ≠ g :=
  fun heq => h (congrArg Field.offset heq)

/-- Addresses of headers that do not overlap. -/
def Apart (hs : List ℕ) : Prop := ∀ x ∈ hs, ∀ y ∈ hs, x ≠ y → x + 64 ≤ y ∨ y + 64 ≤ x

/-- The words of headers at such addresses. -/
def within (hs : List ℕ) : Set ℕ := {x | ∃ b ∈ hs, b ≤ x ∧ x < b + 64}

variable {s : State} {hs : List ℕ} {b c v w : ℕ} {f g : Field} {a : Fin 2}

theorem get_set (hap : Apart hs) (hb : b ∈ hs) (hc : c ∈ hs) :
    (s.set c g v).get b f = if b = c ∧ f = g then v else s.get b f := by
  rw [State.get, State.set, State.put]
  by_cases h : b = c ∧ f = g
  · rw [if_pos h, h.1, h.2]
    exact Function.update_self _ _ _
  · rw [if_neg h]
    refine Function.update_of_ne (fun heq => h ?_) _ _
    have hbc : b = c := by
      by_contra hne
      have hf := f.offset_lt
      have hg := g.offset_lt
      have := hap b hb c hc hne
      omega
    subst hbc
    exact ⟨rfl, Field.offset_inj (by omega)⟩

theorem get_link (hap : Apart hs) (hb : b ∈ hs) (hc : c = 0 ∨ c ∈ hs) :
    (s.link c g v).get b f = if (c ≠ 0 ∧ b = c) ∧ f = g then v else s.get b f := by
  rw [State.link]
  by_cases h0 : c = 0
  · rw [if_neg (not_not_intro h0), if_neg fun h => h.1.1 h0]
  · rw [if_pos h0, get_set hap hb (hc.resolve_left h0)]
    exact if_congr (and_congr_left' (and_iff_right h0).symm) rfl rfl

theorem get_linkOrHead : (s.linkOrHead a c g v).get b f = (s.link c g v).get b f := by
  rw [State.linkOrHead, State.link]
  split
  · rfl
  · rfl

theorem freeHeads_link : (s.link c g v).freeHeads = s.freeHeads := by
  rw [State.link]
  split
  · rfl
  · rfl

theorem freeHeads_linkOrHead :
    (s.linkOrHead a c g v).freeHeads = if c = 0 then Function.update s.freeHeads a v else s.freeHeads := by
  rw [State.linkOrHead]
  by_cases h0 : c = 0
  · rw [if_neg (not_not_intro h0), if_pos h0]
    rfl
  · rw [if_pos h0, if_neg h0]
    rfl

/-! ## What a step leaves alone -/

/-- No word changes but those of a set, and no free list but that of an arena. -/
structure Keeps (A : Set ℕ) (a : Fin 2) (s s' : State) : Prop where
  words : ∀ x ∉ A, s'.word x = s.word x
  heads : ∀ a' ≠ a, s'.freeHeads a' = s.freeHeads a'

variable {A B : Set ℕ} {s' s'' : State}

theorem Keeps.rfl : Keeps A a s s := ⟨fun _ _ => Eq.refl _, fun _ _ => Eq.refl _⟩

theorem Keeps.trans (h : Keeps A a s s') (h' : Keeps A a s' s'') : Keeps A a s s'' :=
  ⟨fun x hx => (h'.words x hx).trans (h.words x hx), fun x hx => (h'.heads x hx).trans (h.heads x hx)⟩

theorem Keeps.mono (h : Keeps A a s s') (hAB : A ⊆ B) : Keeps B a s s' :=
  ⟨fun x hx => h.words x fun hA => hx (hAB hA), h.heads⟩

theorem Keeps.set (hc : c ∈ hs) : Keeps (within hs) a s (s.set c g v) := by
  refine ⟨fun x hx => Function.update_of_ne (fun heq => hx ⟨c, hc, ?_⟩) _ _, fun _ _ => Eq.refl _⟩
  have hg := g.offset_lt
  omega

theorem Keeps.link (hc : c = 0 ∨ c ∈ hs) : Keeps (within hs) a s (s.link c g v) := by
  rw [State.link]
  split
  case isTrue h0 => exact Keeps.set (hc.resolve_left h0)
  case isFalse h0 => exact Keeps.rfl

theorem Keeps.linkOrHead (hc : c = 0 ∨ c ∈ hs) : Keeps (within hs) a s (s.linkOrHead a c g v) := by
  rw [State.linkOrHead]
  split
  case isTrue h0 => exact Keeps.set (hc.resolve_left h0)
  case isFalse h0 =>
    exact ⟨fun _ _ => Eq.refl _, fun a' ha' => Function.update_of_ne ha' _ _⟩

/-! ## An arena -/

/-- The header of a block says what the list says. -/
structure Header (s : State) (b : Blk) : Prop where
  magic : s.get b.addr .magic = blockMagic
  size : s.get b.addr .size = b.size
  free : b.live = none → s.get b.addr .used = 0 ∧ s.get b.addr .requested = 0
  live : ∀ l, b.live = some l → s.get b.addr .used = 1 ∧ s.get b.addr .requested = l.requested ∧
    s.get b.addr .owner = l.owner ∧ s.get b.addr .pad = l.pad

/-- **The words of an arena and its blocks.** -/
structure Arena (m : Machine) (s : State) (a : Fin 2) (bs : List Blk) : Prop where
  tiles : Tiles (m.arenas a) bs (m.arenas a + arenaBytes a)
  sizes : ∀ b ∈ bs, 16 ≤ b.size ∧ b.size % 16 = 0
  headers : ∀ b ∈ bs, Header s b
  chain : Seg (s.get · .prev) (s.get · .next) 0 (addrs bs) 0
  freeChain : Seg (s.get · .owner) (s.get · .pad) 0 (frees bs) 0
  head : s.freeHeads a = (frees bs).headD 0

variable {m : Machine} {bs : List Blk}

theorem Machine.arenas_pos (m : Machine) (a : Fin 2) : 0 < m.arenas a := by
  rw [Machine.arenas]
  split
  · exact m.data_pos
  · exact m.code_pos

theorem Machine.arenas_fit (m : Machine) (a : Fin 2) : m.arenas a + arenaBytes a < 2 ^ 64 := by
  rw [Machine.arenas, arenaBytes]
  split
  · exact m.data_fits
  · exact m.code_fits

theorem Arena.apart (h : Arena m s a bs) : Apart (addrs bs) :=
  fun _ hx _ hy hne => h.tiles.apart hx hy hne

theorem Arena.pos (h : Arena m s a bs) : 0 ∉ addrs bs := by
  intro h0
  obtain ⟨b, hb, hb0⟩ := mem_addrs.mp h0
  have hle := (h.tiles.within.2 b hb).1
  have hpos := m.arenas_pos a
  omega

theorem Arena.nodup (h : Arena m s a bs) : (addrs bs).Nodup := h.tiles.nodup

/-- A block in use is not in the free list. -/
theorem Arena.notMem_frees (h : Arena m s a bs) {b : Blk} {l : Live} (hb : b ∈ bs)
    (hl : b.live = some l) : b.addr ∉ frees bs := by
  intro hmem
  obtain ⟨c, hc, hcn, hcb⟩ := mem_frees.mp hmem
  have heq : c = b := List.inj_on_of_nodup_map h.nodup hc hb hcb
  rw [heq, hl] at hcn
  cases hcn

theorem within_addrs (bs : List Blk) : within (addrs bs) = headerWords bs := by
  ext x
  constructor
  · rintro ⟨y, hy, hx⟩
    obtain ⟨b, hb, rfl⟩ := mem_addrs.mp hy
    exact ⟨b, hb, hx⟩
  · rintro ⟨b, hb, hx⟩
    exact ⟨b.addr, mem_addrs.mpr ⟨b, hb, Eq.refl _⟩, hx⟩

theorem get_keeps (h : Keeps A a s s') {b : Blk} (hb : Disjoint b.header A) :
    s'.get b.addr f = s.get b.addr f := by
  refine h.words _ fun hA => Set.disjoint_left.mp hb ?_ hA
  have hf := f.offset_lt
  exact ⟨Nat.le_add_right _ _, by omega⟩

/-- The links of a free block are not part of what its header says. -/
theorem Header.relink {b : Blk} (h : Header s b)
    (heq : ∀ f, f ≠ .prev → f ≠ .next → f ≠ .owner → f ≠ .pad → s'.get b.addr f = s.get b.addr f)
    (hlive : ∀ l, b.live = some l → s'.get b.addr .owner = s.get b.addr .owner ∧
      s'.get b.addr .pad = s.get b.addr .pad) : Header s' b where
  magic := by rw [heq .magic nofun nofun nofun nofun, h.magic]
  size := by rw [heq .size nofun nofun nofun nofun, h.size]
  free hb := by
    rw [heq .used nofun nofun nofun nofun, heq .requested nofun nofun nofun nofun]
    exact h.free hb
  live l hl := by
    rw [heq .used nofun nofun nofun nofun, heq .requested nofun nofun nofun nofun, (hlive l hl).1,
      (hlive l hl).2]
    exact h.live l hl

theorem Header.frame {b : Blk} (h : Header s b) (heq : ∀ f, s'.get b.addr f = s.get b.addr f) :
    Header s' b :=
  h.relink (fun f _ _ _ _ => heq f) fun _ _ => ⟨heq .owner, heq .pad⟩

/-- An arena depends on nothing but the headers of its blocks and the head of its free list. -/
theorem Arena.frame (h : Arena m s a bs)
    (heq : ∀ b ∈ bs, ∀ f, s'.get b.addr f = s.get b.addr f) (hhead : s'.freeHeads a = s.freeHeads a) :
    Arena m s' a bs where
  tiles := h.tiles
  sizes := h.sizes
  headers b hb := (h.headers b hb).frame (heq b hb)
  chain := by
    refine h.chain.congr (fun y hy => ?_) fun y hy => ?_
    · obtain ⟨b, hb, rfl⟩ := mem_addrs.mp hy
      exact heq b hb _
    · obtain ⟨b, hb, rfl⟩ := mem_addrs.mp hy
      exact heq b hb _
  freeChain := by
    refine h.freeChain.congr (fun y hy => ?_) fun y hy => ?_
    · obtain ⟨b, hb, -, rfl⟩ := mem_frees.mp hy
      exact heq b hb _
    · obtain ⟨b, hb, -, rfl⟩ := mem_frees.mp hy
      exact heq b hb _
  head := hhead.trans h.head

end ZealBringup.Heap
