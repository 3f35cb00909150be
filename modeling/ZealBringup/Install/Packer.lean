import ZealBringup.Install.Image

/-!
# What the packer writes

* `PackInv` — after some blocks: where the extents are, and that every block can be read back
  from the data.
* `packImage_some` — the packed module has a table for the whole source, the kernel accepts it,
  and every sector of the source is what the module says of it.
-/

set_option maxRecDepth 10000

namespace ZealBringup.Install

open Sparse

/-- A sector of zeros. -/
def zeroSector : List UInt8 := List.replicate 512 0

/-- What the module says of a sector: the data of its extent, or zeros. -/
def expectedSector (data : List UInt8) (es : List Extent) (s : ℕ) : List UInt8 :=
  match place 512 es s with
  | some off => (data.drop off).take 512
  | none => zeroSector

/-- The extents of the packer, the data of the first at `off`. -/
def layout : ℕ → List (ℕ × ℕ) → List Extent
  | _, [] => []
  | off, (start, count) :: ps => ⟨start, count, off⟩ :: layout (off + count * 512) ps

/-- The sectors of the extents of the packer. -/
def total : List (ℕ × ℕ) → ℕ
  | [] => 0
  | (_, count) :: ps => count + total ps

/-- The extents lie one behind the other between `prev` and `stop`. -/
def Chain : ℕ → List (ℕ × ℕ) → ℕ → Prop
  | prev, [], stop => prev ≤ stop
  | prev, (start, count) :: ps, stop => prev ≤ start ∧ 0 < count ∧ Chain (start + count) ps stop

theorem layout_append (off : ℕ) (ps qs : List (ℕ × ℕ)) :
    layout off (ps ++ qs) = layout off ps ++ layout (off + total ps * 512) qs := by
  induction ps generalizing off with
  | nil => rw [List.nil_append, layout, List.nil_append, total, Nat.zero_mul, Nat.add_zero]
  | cons p ps ih =>
    rw [List.cons_append, layout, ih, layout, total, List.cons_append, Nat.add_mul, Nat.add_assoc]

theorem length_layout (off : ℕ) (ps : List (ℕ × ℕ)) : (layout off ps).length = ps.length := by
  induction ps generalizing off with
  | nil => rfl
  | cons p ps ih => rw [layout, List.length_cons, List.length_cons, ih]

theorem total_append (ps qs : List (ℕ × ℕ)) : total (ps ++ qs) = total ps + total qs := by
  induction ps with
  | nil => rw [List.nil_append, total, Nat.zero_add]
  | cons p ps ih => rw [List.cons_append, total, ih, total, Nat.add_assoc]

variable {prev mid stop : ℕ} {ps : List (ℕ × ℕ)}

theorem Chain.append {qs : List (ℕ × ℕ)} (h : Chain prev ps mid) (h' : Chain mid qs stop) :
    Chain prev (ps ++ qs) stop := by
  induction ps generalizing prev with
  | nil =>
    cases qs with
    | nil => exact Nat.le_trans h h'
    | cons q qs => exact ⟨Nat.le_trans h h'.1, h'.2⟩
  | cons p ps ih => exact ⟨h.1, h.2.1, ih h.2.2⟩

theorem Chain.mono {stop' : ℕ} (h : Chain prev ps stop) (hle : stop ≤ stop') :
    Chain prev ps stop' := by
  have happend : Chain prev (ps ++ []) stop' := h.append (show Chain stop [] stop' from hle)
  rwa [List.append_nil] at happend

theorem Chain.total_le (h : Chain prev ps stop) :
    prev + total ps ≤ stop := by
  induction ps generalizing prev with
  | nil => exact h
  | cons p ps ih =>
    have hrest := ih h.2.2
    have hprev := h.1
    rw [total]
    omega

theorem Chain.stop_le {off : ℕ} (h : Chain prev ps stop) :
    ∀ e ∈ layout off ps, e.stop ≤ stop := by
  induction ps generalizing prev off with
  | nil => exact fun e he => nomatch he
  | cons p ps ih =>
    intro e he
    rcases List.mem_cons.1 he with rfl | he
    · exact (Nat.le_add_right _ _).trans h.2.2.total_le
    · exact ih h.2.2 e he

/-- Data that is longer by a front is read that much later. -/
theorem expectedSector_append (front data : List UInt8) (off : ℕ) (ps : List (ℕ × ℕ)) (s : ℕ) :
    expectedSector (front ++ data) (layout (front.length + off) ps) s =
      expectedSector data (layout off ps) s := by
  have hplace : place 512 (layout (front.length + off) ps) s =
      (place 512 (layout off ps) s).map (front.length + ·) := by
    induction ps generalizing off with
    | nil => rfl
    | cons p ps ih =>
      rw [layout, layout, place, place, Nat.add_assoc]
      by_cases h : p.1 ≤ s ∧ s < p.1 + p.2
      · have hhas : ∀ o, Extent.Has ⟨p.1, p.2, o⟩ s := fun _ => h
        rw [find_cons_of_has (hhas _), find_cons_of_has (hhas _), Option.map_some,
          Option.map_some, Option.map_some, Nat.add_assoc]
      · have hnot : ∀ o, ¬Extent.Has ⟨p.1, p.2, o⟩ s := fun _ => h
        rw [find_cons_of_not (hnot _), find_cons_of_not (hnot _)]
        exact ih _
  rw [expectedSector, expectedSector, hplace]
  cases place 512 (layout off ps) s with
  | none => rfl
  | some off =>
    rw [Option.map_some]
    dsimp only
    rw [List.drop_append, List.drop_of_length_le (by omega), List.nil_append,
      Nat.add_sub_cancel_left]

/-! ## The loop -/

/-- After the blocks `bs`: the closed extents end at `mid`, where the open one starts; and every
block can be read back. -/
structure PackInv (bs : List (List UInt8)) (s : PackState) (mid : ℕ) : Prop where
  lba : s.lba = bs.length
  chain : Chain 0 s.extents mid
  active : mid + s.activeCount = s.lba
  start : s.activeStart = if s.activeCount = 0 then none else some mid
  length : s.data.length = (total s.extents + s.activeCount) * 512
  content : ∀ k b, bs[k]? = some b → expectedSector s.data (layout 0 s.allExtents) k = b

variable {bs : List (List UInt8)} {s : PackState}

theorem allExtents_eq (h : PackInv bs s mid) :
    s.allExtents = s.extents ++ if s.activeCount = 0 then [] else [(mid, s.activeCount)] := by
  rw [PackState.allExtents, h.start]
  by_cases hc : s.activeCount = 0
  · rw [if_pos hc, if_pos hc, List.append_nil]
  · rw [if_neg hc, if_neg hc]

variable {k : ℕ}

/-- The sector `k` while the extent at `mid` is open. -/
theorem place_open {count : ℕ} (hk : k < mid + count) :
    place 512 (layout 0 (ps ++ [(mid, count)])) k =
      (place 512 (layout 0 ps) k).or
        (if mid ≤ k then some (total ps * 512 + (k - mid) * 512) else none) := by
  rw [layout_append, place_append, layout, layout, place_singleton, Nat.zero_add]
  have hiff : Extent.Has ⟨mid, count, total ps * 512⟩ k ↔ mid ≤ k :=
    ⟨fun h => h.1, fun h => ⟨h, hk⟩⟩
  simp only [hiff]

theorem place_allExtents (h : PackInv bs s mid) (hk : k < s.lba) :
    place 512 (layout 0 s.allExtents) k =
      (place 512 (layout 0 s.extents) k).or
        (if mid ≤ k then some (total s.extents * 512 + (k - mid) * 512) else none) := by
  have hactive := h.active
  rw [allExtents_eq h]
  by_cases hc : s.activeCount = 0
  · rw [if_pos hc, List.append_nil, if_neg (by omega), Option.or_none]
  · rw [if_neg hc, place_open (by omega)]

variable {block b : List UInt8}

/-- More data behind does not change a sector that is there. -/
theorem expectedSector_extend {data : List UInt8} {es fs : List Extent}
    (hplace : place 512 fs k = place 512 es k) (hb : b.length = 512)
    (h : expectedSector data es k = b) : expectedSector (data ++ block) fs k = b := by
  rw [expectedSector, hplace]
  rw [expectedSector] at h
  cases hp : place 512 es k with
  | none => rwa [hp] at h
  | some off =>
    rw [hp] at h
    dsimp only at h ⊢
    have hlen : off + 512 ≤ data.length := by
      have := congrArg List.length h
      rw [List.length_take, List.length_drop, hb] at this
      omega
    rw [List.drop_append_of_le_length (by omega), List.take_append_of_le_length
      (by rw [List.length_drop]; omega), h]

theorem getElem?_snoc (h : (bs ++ [block])[k]? = some b) :
    bs[k]? = some b ∨ k = bs.length ∧ b = block := by
  rcases lt_trichotomy k bs.length with hk | hk | hk
  · exact .inl (by rwa [List.getElem?_append_left hk] at h)
  · subst hk
    rw [List.getElem?_concat_length] at h
    exact .inr ⟨rfl, (Option.some.inj h).symm⟩
  · rw [List.getElem?_eq_none (by simp; omega)] at h
    cases h

/-- One block that is not zero. -/
theorem PackInv.data_step (h : PackInv bs s mid) (hbs : ∀ b ∈ bs, b.length = 512)
    (hblock : block.length = 512) (hne : block.any (· != 0) = true) :
    PackInv (bs ++ [block]) (packBlock s block) mid := by
  have hlba := h.lba
  have hactive := h.active
  have hstart : some (s.activeStart.getD s.lba) = some mid := by
    rw [h.start]
    by_cases hc : s.activeCount = 0
    · rw [if_pos hc, Option.getD_none]
      rw [← hactive, hc, Nat.add_zero]
    · rw [if_neg hc, Option.getD_some]
  have hstep : packBlock s block = ⟨s.extents, s.data ++ block, some mid, s.activeCount + 1,
      s.lba + 1⟩ := by
    rw [packBlock, if_pos hne, hstart]
  have hplace : ∀ k, k < s.lba + 1 → place 512 (layout 0 (s.extents ++ [(mid, s.activeCount + 1)])) k =
      (place 512 (layout 0 s.extents) k).or
        (if mid ≤ k then some (total s.extents * 512 + (k - mid) * 512) else none) :=
    fun k hk => place_open (by omega)
  rw [hstep]
  refine ⟨by simp [hlba], h.chain, by show mid + (s.activeCount + 1) = s.lba + 1; omega, rfl, ?_, ?_⟩
  · show (s.data ++ block).length = _
    rw [List.length_append, h.length, hblock]
    ring
  · intro k b hk
    show expectedSector (s.data ++ block) (layout 0 (s.extents ++ [(mid, s.activeCount + 1)])) k = b
    rcases getElem?_snoc hk with hk | ⟨rfl, rfl⟩
    · have hlt : k < s.lba := by
        rw [hlba]
        exact (List.getElem?_eq_some_iff.1 hk).1
      exact expectedSector_extend (by rw [hplace k (by omega), place_allExtents h hlt])
        (hbs b (List.mem_of_getElem? hk)) (h.content k b hk)
    · rw [expectedSector, hplace _ (by omega),
        place_none fun e he => by have := h.chain.stop_le e he; omega, Option.none_or,
        if_pos (by omega)]
      have hoff : total s.extents * 512 + (bs.length - mid) * 512 = s.data.length := by
        rw [h.length, Nat.add_mul]
        congr 2
        omega
      dsimp only
      rw [hoff, List.drop_left, List.take_of_length_le hblock.le]

/-- One block of zeros. -/
theorem PackInv.zero_step (h : PackInv bs s mid) (hblock : block.length = 512)
    (hzero : ¬block.any (· != 0) = true) :
    PackInv (bs ++ [block]) (packBlock s block) (s.lba + 1) := by
  have hlba := h.lba
  have hactive := h.active
  have hstep : packBlock s block = ⟨s.allExtents, s.data, none, 0, s.lba + 1⟩ := by
    rw [packBlock, if_neg hzero, allExtents_eq h, h.start]
    by_cases hc : s.activeCount = 0
    · rw [if_pos hc, if_pos hc, List.append_nil]
      obtain ⟨extents, data, activeStart, activeCount, lba⟩ := s
      dsimp only at hc ⊢
      rw [hc]
    · rw [if_neg hc, if_neg hc]
  have hchain : Chain 0 s.allExtents s.lba := by
    rw [allExtents_eq h]
    refine h.chain.append ?_
    by_cases hc : s.activeCount = 0
    · rw [if_pos hc]
      exact Nat.le.intro hactive
    · rw [if_neg hc]
      exact ⟨le_rfl, Nat.pos_of_ne_zero hc, hactive.le⟩
  have htotal : total s.allExtents = total s.extents + s.activeCount := by
    rw [allExtents_eq h, total_append]
    by_cases hc : s.activeCount = 0
    · rw [if_pos hc, hc, total]
    · rw [if_neg hc, total, total, Nat.add_zero]
  rw [hstep]
  refine ⟨by simp [hlba], hchain.mono (Nat.le_succ _), rfl, rfl, ?_, ?_⟩
  · show s.data.length = (total s.allExtents + 0) * 512
    rw [h.length, htotal, Nat.add_zero]
  · intro k b hk
    show expectedSector s.data (layout 0 s.allExtents) k = b
    rcases getElem?_snoc hk with hk | ⟨rfl, rfl⟩
    · exact h.content k b hk
    · rw [expectedSector, place_none fun e he => by rw [← hlba]; exact hchain.stop_le e he]
      refine (List.eq_replicate_iff.2 ⟨hblock, fun x hx => ?_⟩).symm
      by_contra hne
      exact hzero (List.any_eq_true.2 ⟨x, hx, by simpa using hne⟩)

/-- The invariant holds after any number of blocks. -/
theorem PackInv.run (bs : List (List UInt8)) (hbs : ∀ b ∈ bs, b.length = 512) :
    ∃ mid, PackInv bs (bs.foldl packBlock ⟨[], [], none, 0, 0⟩) mid := by
  induction bs using List.reverseRecOn with
  | nil => exact ⟨0, rfl, le_rfl, rfl, rfl, rfl, fun k b hk => nomatch hk⟩
  | append_singleton bs block ih =>
    obtain ⟨mid, h⟩ := ih fun b hb => hbs b (List.mem_append_left _ hb)
    have hblock := hbs block (by simp)
    rw [List.foldl_append, List.foldl_cons, List.foldl_nil]
    by_cases hne : block.any (· != 0) = true
    · exact ⟨mid, h.data_step (fun b hb => hbs b (List.mem_append_left _ hb)) hblock hne⟩
    · exact ⟨_, h.zero_step hblock hne⟩

/-! ## The bytes of the module -/

variable {image rest : List UInt8}

theorem zinstallU32_of_drop {p v : ℕ} (h : image.drop p = le32 v ++ rest) :
    zinstallU32 image p = some (v % 2 ^ 32) := by
  have hget : ∀ j, image[p + j]? = (le32 v ++ rest)[j]? := fun j => by rw [← h, List.getElem?_drop]
  rw [zinstallU32, hget 1, hget 2, hget 3, show image[p]? = _ from hget 0]
  show some _ = some _
  simp only [UInt8.toNat_ofNat']
  congr 1
  omega

theorem zinstallU64_of_drop {p v : ℕ} (h : image.drop p = le64 v ++ rest) (hv : v < 2 ^ 64) :
    zinstallU64 image p = some v := by
  rw [le64, List.append_assoc] at h
  have hhigh : image.drop (p + 4) = le32 (v / 2 ^ 32) ++ rest := by
    rw [← List.drop_drop, h]
    rfl
  rw [zinstallU64, zinstallU32_of_drop h, zinstallU32_of_drop hhigh]
  dsimp only
  congr 1
  omega

theorem tableEntry_of_drop {i start count : ℕ}
    (h : image.drop (40 + i * 16) = packExtent (start, count) ++ rest) (hs : start < 2 ^ 64)
    (hc : count < 2 ^ 32) : tableEntry image i = some (start, count, 0) := by
  rw [packExtent, List.append_assoc, List.append_assoc] at h
  have hcount : image.drop (40 + i * 16 + 8) = le32 count ++ (le32 0 ++ rest) := by
    rw [← List.drop_drop, h]
    rfl
  have hreserved : image.drop (40 + i * 16 + 12) = le32 0 ++ rest := by
    rw [← List.drop_drop, h]
    rfl
  rw [tableEntry, zinstallU64_of_drop h hs, zinstallU32_of_drop hcount,
    zinstallU32_of_drop hreserved]
  dsimp only
  rw [Nat.mod_eq_of_lt hc, Nat.zero_mod]

/-- The written table is read as the extents of the packer. -/
theorem table_of_chain {data : List UInt8} {i off : ℕ} (hchain : Chain prev ps zealDiskSects)
    (hdrop : image.drop (40 + i * 16) = ps.flatMap packExtent ++ data)
    (hoff : off + total ps * 512 = image.length) : Table image prev i off (layout off ps) := by
  induction ps generalizing prev i off with
  | nil =>
    rw [total, Nat.zero_mul, Nat.add_zero] at hoff
    exact .nil hoff
  | cons p ps ih =>
    obtain ⟨start, count⟩ := p
    obtain ⟨hprev, hcount, hrest⟩ := hchain
    have hstop := hrest.total_le
    rw [List.flatMap_cons, List.append_assoc] at hdrop
    rw [total, Nat.add_mul] at hoff
    have hnext : image.drop (40 + (i + 1) * 16) = ps.flatMap packExtent ++ data := by
      rw [show 40 + (i + 1) * 16 = 40 + i * 16 + 16 by omega, ← List.drop_drop, hdrop]
      rfl
    unfold zealDiskSects at hstop
    exact .cons (tableEntry_of_drop hdrop (by omega) (by omega)) hprev hcount
      (by unfold zealDiskSects; omega) (ih hrest hnext (by omega))

theorem length_flatMap_packExtent (ps : List (ℕ × ℕ)) :
    (ps.flatMap packExtent).length = ps.length * 16 := by
  induction ps with
  | nil => rfl
  | cons p ps ih =>
    rw [List.flatMap_cons, List.length_append, ih, List.length_cons, Nat.succ_mul, Nat.add_comm]
    rfl

/-- The header is read as it was written. -/
theorem headerWords_packHeader {sectors extents payload : ℕ} (rest : List UInt8)
    (hs : sectors < 2 ^ 64) (he : extents < 2 ^ 32) (hp : payload < 2 ^ 64) :
    headerWords (packHeader sectors extents payload ++ rest) =
      some ((1, 512, sectors, 16, payload), extents) := by
  have h8 := @zinstallU32_of_drop (packHeader sectors extents payload ++ rest) _ 8 1 rfl
  have h12 := @zinstallU32_of_drop (packHeader sectors extents payload ++ rest) _ 12 512 rfl
  have h16 := @zinstallU64_of_drop (packHeader sectors extents payload ++ rest) _ 16 sectors rfl hs
  have h24 := @zinstallU32_of_drop (packHeader sectors extents payload ++ rest) _ 24 extents rfl
  have h28 := @zinstallU32_of_drop (packHeader sectors extents payload ++ rest) _ 28 16 rfl
  have h32 := @zinstallU64_of_drop (packHeader sectors extents payload ++ rest) _ 32 payload rfl hp
  rw [headerWords, h8, h12, h16, h24, h28, h32, Nat.mod_eq_of_lt he]
  rfl

theorem zinstallImageValid_of_table {es : List Extent}
    (hsize : 40 ≤ image.length ∧ image.length ≤ 64 * 1024 * 1024)
    (hmagic : image.take 8 = installMagic)
    (hwords : headerWords image = some ((1, 512, zealDiskSects, 16, image.length), es.length))
    (htable : Table image 0 0 (40 + es.length * 16) es) :
    zinstallImageValid image = .ok (es.length, 40 + es.length * 16) := by
  have hoff := htable.off_le
  rw [zinstallImageValid, if_neg (by omega), if_neg (not_not.2 hmagic), hwords]
  dsimp only
  rw [if_neg (not_not.2 rfl), if_neg (by omega), if_neg (by omega)]
  have hcheck : checkTable image (40 + es.length * 16) 0 es.length 0 0 =
      .ok (image.length - (40 + es.length * 16)) := checkTable_of_table htable
  rw [hcheck]
  dsimp only
  rw [if_neg (by omega)]

variable {source : List UInt8}

/-- The block `k` of a file. -/
theorem getElem?_blocks (hk : k < source.length / 512) :
    (blocks source)[k]? = some ((source.drop (k * 512)).take 512) := by
  rw [blocks, List.getElem?_map, List.getElem?_range hk, Option.map_some]

theorem length_of_mem_blocks (hb : b ∈ blocks source) : b.length = 512 := by
  obtain ⟨k, hk, rfl⟩ := List.mem_map.1 hb
  rw [List.mem_range, Nat.lt_div_iff_mul_lt (by decide)] at hk
  rw [List.length_take, List.length_drop]
  omega

/-- **The kernel accepts what the packer writes**, and every sector of the source is what the
module says of it. -/
theorem packImage_some (hlen : source.length = zealDiskSects * 512)
    (h : packImage source = some image) (hsize : image.length ≤ 64 * 1024 * 1024) :
    ∃ es dataStart, zinstallImageValid image = .ok (es.length, dataStart) ∧
      Table image 0 0 dataStart es ∧
      ∀ k, k < zealDiskSects → expectedSector image es k = (source.drop (k * 512)).take 512 := by
  have hsects : source.length / 512 = zealDiskSects := by
    rw [hlen, Nat.mul_div_cancel _ (by decide)]
  obtain ⟨mid, hinv⟩ := PackInv.run (blocks source) fun b hb => length_of_mem_blocks hb
  rw [packImage] at h
  split_ifs at h with hbad
  cases h
  generalize hs : (blocks source).foldl packBlock ⟨[], [], none, 0, 0⟩ = s at hinv hsize ⊢
  have hlba : s.lba = zealDiskSects := by
    rw [hinv.lba, blocks, List.length_map, List.length_range, hsects]
  have hchain : Chain 0 s.allExtents zealDiskSects := by
    rw [allExtents_eq hinv]
    have hactive := hinv.active
    refine hinv.chain.append ?_
    by_cases hc : s.activeCount = 0
    · rw [if_pos hc]
      show mid ≤ zealDiskSects
      omega
    · rw [if_neg hc]
      exact ⟨le_rfl, Nat.pos_of_ne_zero hc, by show mid + s.activeCount ≤ _; omega⟩
  have hdata : s.data.length = total s.allExtents * 512 := by
    rw [hinv.length, allExtents_eq hinv, total_append]
    by_cases hc : s.activeCount = 0
    · rw [if_pos hc, hc, total]
    · rw [if_neg hc, total, total, Nat.add_zero]
  generalize hps : s.allExtents = ps at hchain hdata hsize ⊢
  generalize hfront : packHeader (source.length / 512) ps.length
    (40 + ps.length * 16 + s.data.length) ++ ps.flatMap packExtent = front at hsize ⊢
  have hfrontlen : front.length = 40 + ps.length * 16 := by
    rw [← hfront, List.length_append, length_flatMap_packExtent]
    rfl
  have hlength : (front ++ s.data).length = 40 + ps.length * 16 + s.data.length := by
    rw [List.length_append, hfrontlen]
  have htable : Table (front ++ s.data) 0 0 (40 + ps.length * 16)
      (layout (40 + ps.length * 16) ps) := by
    have hdrop : (front ++ s.data).drop (40 + 0 * 16) = ps.flatMap packExtent ++ s.data := by
      rw [← hfront, List.append_assoc]
      rfl
    exact table_of_chain hchain hdrop (by rw [hlength, hdata])
  refine ⟨layout (40 + ps.length * 16) ps, 40 + ps.length * 16, ?_, htable, fun k hk => ?_⟩
  · have hvalid := @zinstallImageValid_of_table (front ++ s.data) (layout (40 + ps.length * 16) ps)
    rw [length_layout] at hvalid ⊢
    refine hvalid ⟨by omega, hsize⟩ ?_ ?_ htable
    · rw [← hfront]
      rfl
    · rw [hlength, ← hfront, List.append_assoc, hsects]
      exact headerWords_packHeader _ (by decide) (by omega) (by omega)
  · rw [show 40 + ps.length * 16 = front.length + 0 by omega, expectedSector_append, ← hps]
    exact hinv.content k _ (getElem?_blocks (by omega))

end ZealBringup.Install
