import Mathlib
import ZealBringup.Lib.Probe

/-!
# The depth map

`hc_depth_map_clear` and `hc_depth_try` of `kernel_stub.c`: a hash table of 2048 cells stands for the
z-buffer of the screen.

* `hcDepthTry` — whether a plot is allowed; the map keeps its depth then.
* `zBuffer` — the answers of a z-buffer, from the plots that it has accepted.
* `depthTable`, `depthPath` — the map as a table with open addressing.
* `depthRun_zBuffer` — the map answers as the z-buffer while it is switched on and there are at most
  2048 pixels.
-/

namespace ZealBringup.Hc

open Probe

/-! ## The code -/

/-- `HC_DEPTH_MAP`. -/
abbrev hcDepthMap : ℕ := 2048

/-- `struct hc_depth_cell`. -/
structure HcDepthCell where
  x : ℕ
  y : ℕ
  z : ℤ
  deriving DecidableEq

/-- `g_hc_depth_on` and `g_hc_depth_map`. -/
structure DepthState where
  on : Bool
  map : Fin hcDepthMap → HcDepthCell

def hcDepthMapClear (s : DepthState) : DepthState :=
  { s with map := fun _ => ⟨0xFFFF, 0xFFFF, 0x7fffffff⟩ }

/-- A number in an unsigned word. -/
def toUnsigned (bits : ℕ) (n : ℤ) : ℕ := (n % 2 ^ bits).toNat

def hcDepthHash (xi yi : ℤ) : ℕ :=
  (toUnsigned 32 xi * 2654435761 % 2 ^ 32) ^^^ (toUnsigned 32 yi * 40503 % 2 ^ 32)

/-- The cell of a round of the loop. -/
def hcDepthIdx (h i : ℕ) : Fin hcDepthMap := ⟨(h + i) % 2 ^ 32 % hcDepthMap, Nat.mod_lt _ (by decide)⟩

/-- The loop over the rounds. -/
def hcDepthLoop (map : Fin hcDepthMap → HcDepthCell) (xi yi zi : ℤ) (h : ℕ) :
    List ℕ → ℕ × (Fin hcDepthMap → HcDepthCell)
  | [] => (1, map)
  | i :: rounds =>
    let idx := hcDepthIdx h i
    let c := map idx
    if c.x = 0xFFFF then
      (1, Function.update map idx ⟨toUnsigned 16 xi, toUnsigned 16 yi, zi⟩)
    else if c.x = toUnsigned 16 xi ∧ c.y = toUnsigned 16 yi then
      if zi > c.z then (0, map) else (1, Function.update map idx { c with z := zi })
    else hcDepthLoop map xi yi zi h rounds

def hcDepthTry (s : DepthState) (xi yi zi : ℤ) : ℕ × DepthState :=
  if s.on = false ∨ xi < 0 ∨ yi < 0 ∨ xi > 0xFFFE ∨ yi > 0xFFFE then (1, s)
  else
    let (allowed, map) := hcDepthLoop s.map xi yi zi (hcDepthHash xi yi) (List.range hcDepthMap)
    (allowed, { s with map := map })

/-- A plot of a pixel at a depth. -/
structure Plot where
  x : ℤ
  y : ℤ
  z : ℤ
  deriving DecidableEq

/-- The answers to some calls. -/
def depthRun (s : DepthState) : List Plot → List ℕ
  | [] => []
  | p :: ps => (hcDepthTry s p.x p.y p.z).1 :: depthRun (hcDepthTry s p.x p.y p.z).2 ps

/-! ## What it is for -/

def Plot.pixel (p : Plot) : ℤ × ℤ := (p.x, p.y)

/-- The pixels of the map. -/
def Plot.OnMap (p : Plot) : Prop := 0 ≤ p.x ∧ 0 ≤ p.y ∧ p.x ≤ 0xFFFE ∧ p.y ≤ 0xFFFE

instance (p : Plot) : Decidable p.OnMap := inferInstanceAs (Decidable (_ ∧ _))

/-- No accepted plot of the same pixel is nearer. -/
def Nearest (accepted : List Plot) (p : Plot) : Prop :=
  ∀ d ∈ accepted, d.pixel = p.pixel → p.z ≤ d.z

instance (accepted : List Plot) (p : Plot) : Decidable (Nearest accepted p) :=
  inferInstanceAs (Decidable (∀ d ∈ accepted, _))

/-- The answers of a z-buffer. -/
def zBuffer (accepted : List Plot) : List Plot → List ℕ
  | [] => []
  | p :: ps =>
    if Nearest accepted p then 1 :: zBuffer (p :: accepted) ps else 0 :: zBuffer accepted ps

/-! ## The map as a table -/

/-- The entry of a cell. -/
def HcDepthCell.entry (c : HcDepthCell) : Option ((ℤ × ℤ) × ℤ) :=
  if c.x = 0xFFFF then none else some (((c.x : ℤ), (c.y : ℤ)), c.z)

def depthTable (map : Fin hcDepthMap → HcDepthCell) : Table (ℤ × ℤ) ℤ hcDepthMap :=
  fun i => (map i).entry

def depthPath (k : ℤ × ℤ) : List (Fin hcDepthMap) :=
  (List.range hcDepthMap).map (hcDepthIdx (hcDepthHash k.1 k.2))

variable {s : DepthState} {map : Fin hcDepthMap → HcDepthCell} {p : Plot} {ps accepted : List Plot}

/-- The rounds come to every cell: the number of cells divides the range of the hash. -/
theorem mem_depthPath (k : ℤ × ℤ) (c : Fin hcDepthMap) : c ∈ depthPath k := by
  obtain ⟨c, hc⟩ := c
  rw [depthPath, List.mem_map]
  generalize hcDepthHash k.1 k.2 = h
  refine ⟨(c + hcDepthMap - h % hcDepthMap) % hcDepthMap, ?_, Fin.ext ?_⟩
  · exact List.mem_range.mpr (Nat.mod_lt _ (by decide))
  · simp only [hcDepthIdx, hcDepthMap] at hc ⊢
    omega

theorem toUnsigned_onMap {n : ℤ} (h₀ : 0 ≤ n) (h : n ≤ 0xFFFE) : (toUnsigned 16 n : ℤ) = n := by
  rw [toUnsigned]
  omega

theorem depthTable_update (map : Fin hcDepthMap → HcDepthCell) (c : Fin hcDepthMap) {x y : ℕ}
    {z : ℤ} (hx : x ≠ 0xFFFF) :
    depthTable (Function.update map c ⟨x, y, z⟩) = store (depthTable map) c (x, y) z := by
  funext i
  by_cases hi : i = c
  · subst hi
    rw [depthTable, store, Function.update_self, Function.update_self, HcDepthCell.entry,
      if_neg hx]
  · rw [depthTable, store, Function.update_of_ne hi, Function.update_of_ne hi, depthTable]

theorem hcDepthLoop_cases (hp : p.OnMap) (rounds : List ℕ) (h : ℕ) :
    (∃ c, (rounds.map (hcDepthIdx h)).find? (stops (depthTable map) p.pixel) = some c ∧
      ((∃ e, depthTable map c = some e ∧ p.z > e.2 ∧
          hcDepthLoop map p.x p.y p.z h rounds = (0, map)) ∨
        ((∀ e, depthTable map c = some e → p.z ≤ e.2) ∧
          (hcDepthLoop map p.x p.y p.z h rounds).1 = 1 ∧
          depthTable (hcDepthLoop map p.x p.y p.z h rounds).2 =
            store (depthTable map) c p.pixel p.z))) ∨
      (rounds.map (hcDepthIdx h)).find? (stops (depthTable map) p.pixel) = none := by
  obtain ⟨hx₀, hy₀, hx, hy⟩ := hp
  have hux := toUnsigned_onMap hx₀ hx
  have huy := toUnsigned_onMap hy₀ hy
  induction rounds with
  | nil => exact .inr rfl
  | cons i rounds ih =>
    rw [hcDepthLoop, List.map_cons]
    generalize hcDepthIdx h i = c at ih ⊢
    split_ifs with hfree hsame hfar
    · -- a free cell
      have hcell : depthTable map c = none := by rw [depthTable, HcDepthCell.entry, if_pos hfree]
      have hstop : stops (depthTable map) p.pixel c := by
        rw [stops_iff, hcell]
        intro e he
        cases he
      refine .inl ⟨c, List.find?_cons_of_pos hstop, .inr ⟨fun e he => ?_, rfl, ?_⟩⟩
      · rw [hcell] at he
        cases he
      · rw [depthTable_update map c (by omega), hux, huy, Plot.pixel]
    · -- the pixel's cell, which is nearer
      have hcell : depthTable map c = some (p.pixel, (map c).z) := by
        rw [depthTable, HcDepthCell.entry, if_neg hfree, hsame.1, hsame.2, hux, huy, Plot.pixel]
      have hstop : stops (depthTable map) p.pixel c := by
        rw [stops_iff, hcell]
        intro e he
        cases he
        rfl
      exact .inl ⟨c, List.find?_cons_of_pos hstop, .inl ⟨_, hcell, hfar, rfl⟩⟩
    · -- the pixel's cell
      have hcell : depthTable map c = some (p.pixel, (map c).z) := by
        rw [depthTable, HcDepthCell.entry, if_neg hfree, hsame.1, hsame.2, hux, huy, Plot.pixel]
      have hstop : stops (depthTable map) p.pixel c := by
        rw [stops_iff, hcell]
        intro e he
        cases he
        rfl
      refine .inl ⟨c, List.find?_cons_of_pos hstop, .inr ⟨fun e he => ?_, rfl, ?_⟩⟩
      · rw [hcell] at he
        cases he
        exact not_lt.mp hfar
      · rw [depthTable_update map c hfree, hsame.1, hsame.2, hux, huy, Plot.pixel]
    · -- the cell of another pixel
      have hstop : ¬ stops (depthTable map) p.pixel c := by
        rw [stops_iff]
        intro hk
        have hcell : depthTable map c = some ((((map c).x : ℤ), ((map c).y : ℤ)), (map c).z) := by
          rw [depthTable, HcDepthCell.entry, if_neg hfree]
        have heq := hk _ hcell
        rw [Plot.pixel, Prod.mk.injEq] at heq
        exact hsame ⟨by omega, by omega⟩
      rw [List.find?_cons_of_neg hstop]
      exact ih

/-! ## Runs -/

/-- A depth is the least that was accepted for a pixel. -/
def LeastDepth (accepted : List Plot) (k : ℤ × ℤ) (z : ℤ) : Prop :=
  (∃ d ∈ accepted, d.pixel = k ∧ d.z = z) ∧ ∀ d ∈ accepted, d.pixel = k → z ≤ d.z

/-- The map holds the least accepted depth of every pixel, and finds it. -/
structure MapOk (accepted : List Plot) (map : Fin hcDepthMap → HcDepthCell) : Prop where
  sound : Sound depthPath (depthTable map)
  holds : ∀ k z, Holds (depthTable map) k z ↔ LeastDepth accepted k z

theorem mapOk_clear (s : DepthState) : MapOk [] (hcDepthMapClear s).map where
  sound := sound_empty
  holds := fun k z => by
    constructor
    · rintro ⟨c, hc⟩
      cases hc
    · rintro ⟨⟨d, hd, -⟩, -⟩
      cases hd

theorem leastDepth_cons (hp : Nearest accepted p) (k : ℤ × ℤ) (z : ℤ) :
    LeastDepth (p :: accepted) k z ↔ if k = p.pixel then z = p.z else LeastDepth accepted k z := by
  split_ifs with hk
  · subst hk
    constructor
    · rintro ⟨⟨d, hd, hdk, rfl⟩, hleast⟩
      have hle := hleast p List.mem_cons_self rfl
      rcases List.mem_cons.mp hd with rfl | hd
      · rfl
      · exact le_antisymm hle (hp d hd hdk)
    · rintro rfl
      refine ⟨⟨p, List.mem_cons_self, rfl, rfl⟩, fun d hd hdk => ?_⟩
      rcases List.mem_cons.mp hd with rfl | hd
      · exact le_rfl
      · exact hp d hd hdk
  · have hk' : p.pixel ≠ k := fun h => hk h.symm
    simp [LeastDepth, hk']

theorem exists_leastDepth {d : Plot} (hd : d ∈ accepted) : ∃ z, LeastDepth accepted d.pixel z := by
  have hmem : d ∈ (accepted.filter fun a => a.pixel = d.pixel).toFinset := by simp [hd]
  obtain ⟨m, hm, hmin⟩ := Finset.exists_min_image _ Plot.z ⟨d, hmem⟩
  rw [List.mem_toFinset, List.mem_filter, decide_eq_true_eq] at hm
  refine ⟨m.z, ⟨m, hm.1, hm.2, rfl⟩, fun a ha hak => hmin a ?_⟩
  simp [ha, hak]

/-- The room that is left: the pixels accepted are among those the run plots. -/
def Room (pixels : Finset (ℤ × ℤ)) (accepted : List Plot) : Prop :=
  pixels.card ≤ hcDepthMap ∧ ∀ d ∈ accepted, d.pixel ∈ pixels

/-- **One call** answers as the z-buffer does. -/
theorem hcDepthTry_ok {pixels : Finset (ℤ × ℤ)} (hon : s.on = true) (hs : MapOk accepted s.map)
    (hp : p.OnMap) (hroom : Room pixels accepted) (hin : p.pixel ∈ pixels) :
    if Nearest accepted p then
      (hcDepthTry s p.x p.y p.z).1 = 1 ∧ MapOk (p :: accepted) (hcDepthTry s p.x p.y p.z).2.map
    else hcDepthTry s p.x p.y p.z = (0, s) := by
  have hgate : ¬(s.on = false ∨ p.x < 0 ∨ p.y < 0 ∨ p.x > 0xFFFE ∨ p.y > 0xFFFE) := by
    obtain ⟨hx₀, hy₀, hx, hy⟩ := hp
    rw [hon]
    simp
    omega
  rw [hcDepthTry, if_neg hgate]
  have hstored : ∀ c e, depthTable s.map c = some e → e.1 ∈ pixels := by
    intro c e he
    obtain ⟨⟨d, hd, hdk, -⟩, -⟩ := (hs.holds e.1 e.2).mp ⟨c, he⟩
    rw [← hdk]
    exact hroom.2 d hd
  obtain ⟨c, hfind⟩ := exists_find hs.sound (mem_depthPath p.pixel) hroom.1 hin hstored
  have hcases := @hcDepthLoop_cases s.map p hp (List.range hcDepthMap) (hcDepthHash p.x p.y)
  have hpath : (List.range hcDepthMap).map (hcDepthIdx (hcDepthHash p.x p.y)) =
      depthPath p.pixel := rfl
  rw [hpath, ← find] at hcases
  generalize hcDepthLoop s.map p.x p.y p.z (hcDepthHash p.x p.y) (List.range hcDepthMap) = out
    at hcases ⊢
  rcases hcases with ⟨c', hc', ⟨e, he, hfar, hloop⟩ | ⟨hnear, hret, hmap⟩⟩ | hnone
  · -- something nearer is there
    have hleast := (hs.holds _ _).mp (holds_of_find hc' he)
    obtain ⟨⟨d, hd, hdk, hdz⟩, -⟩ := hleast
    have hnot : ¬ Nearest accepted p := by
      intro h
      have := h d hd hdk
      omega
    rw [if_neg hnot, hloop]
  · have hnearest : Nearest accepted p := by
      intro d hd hdk
      -- the pixel has a least depth, and it is in the cell that was found
      cases hcell : depthTable s.map c' with
      | none =>
        obtain ⟨z, hz⟩ := exists_leastDepth hd
        rw [hdk] at hz
        exact absurd ((hs.holds _ _).mpr hz) (not_holds_of_find hs.sound hc' hcell _)
      | some e =>
        have hleast := (hs.holds _ _).mp (holds_of_find hc' hcell)
        exact le_trans (hnear e hcell) (hleast.2 d hd hdk)
    rw [if_pos hnearest]
    refine ⟨hret, ⟨?_, fun k z => ?_⟩⟩
    · simp only
      rw [hmap]
      exact hs.sound.store hc' p.z
    · simp only
      rw [hmap, holds_store hs.sound hc', leastDepth_cons hnearest, hs.holds]
  · exact absurd (hfind.symm.trans hnone) (by simp)

theorem hcDepthTry_on (s : DepthState) (p : Plot) : (hcDepthTry s p.x p.y p.z).2.on = s.on := by
  rw [hcDepthTry]
  split <;> rfl

theorem depthRun_mapOk {pixels : Finset (ℤ × ℤ)} (hon : s.on = true) (hs : MapOk accepted s.map)
    (hps : ∀ p ∈ ps, p.OnMap) (hroom : Room pixels accepted) (hin : ∀ p ∈ ps, p.pixel ∈ pixels) :
    depthRun s ps = zBuffer accepted ps := by
  induction ps generalizing s accepted with
  | nil => rfl
  | cons p ps ih =>
    have hp := hps p List.mem_cons_self
    have hpin := hin p List.mem_cons_self
    have hps' : ∀ q ∈ ps, q.OnMap := fun q hq => hps q (List.mem_cons_of_mem p hq)
    have hin' : ∀ q ∈ ps, q.pixel ∈ pixels := fun q hq => hin q (List.mem_cons_of_mem p hq)
    have hstep := hcDepthTry_ok hon hs hp hroom hpin
    rw [depthRun, zBuffer]
    split_ifs at hstep ⊢ with hnear
    · obtain ⟨hret, hok⟩ := hstep
      have hroom' : Room pixels (p :: accepted) := by
        refine ⟨hroom.1, fun d hd => ?_⟩
        rcases List.mem_cons.mp hd with rfl | hd
        · exact hpin
        · exact hroom.2 d hd
      rw [hret, ih (hcDepthTry_on s p ▸ hon) hok hps' hroom' hin']
    · rw [hstep, ih hon hs hps' hroom hin']

/-- **The depth map is a z-buffer** while it is switched on: after a clear, each call allows a plot
exactly when nothing nearer was accepted for the pixel, as long as there are at most 2048 pixels. -/
theorem depthRun_zBuffer (s : DepthState) (ps : List Plot) (hon : s.on = true)
    (hps : ∀ p ∈ ps, p.OnMap) (hroom : (ps.map Plot.pixel).toFinset.card ≤ hcDepthMap) :
    depthRun (hcDepthMapClear s) ps = zBuffer [] ps := by
  refine depthRun_mapOk hon (mapOk_clear s) hps
    ⟨hroom, fun d hd => absurd hd List.not_mem_nil⟩ fun p hp => ?_
  exact List.mem_toFinset.mpr (List.mem_map_of_mem hp)

/-- Two plots of one pixel with one of another between them. -/
def threePlots : List Plot := [⟨3, 4, 5⟩, ⟨2051, 4, 7⟩, ⟨3, 4, 9⟩]

theorem depthRun_zBuffer_three :
    depthRun (hcDepthMapClear ⟨true, fun _ => ⟨0, 0, 0⟩⟩) threePlots = [1, 1, 0] :=
  (depthRun_zBuffer ⟨true, fun _ => ⟨0, 0, 0⟩⟩ threePlots rfl (by decide) (by decide)).trans
    (by decide)

/-- While the map is switched off, everything is allowed. -/
theorem off_allows_all : ¬ ∀ (s : DepthState) (ps : List Plot), (∀ p ∈ ps, p.OnMap) →
    (ps.map Plot.pixel).toFinset.card ≤ hcDepthMap →
    depthRun (hcDepthMapClear s) ps = zBuffer [] ps := by
  intro h
  have hoff := h ⟨false, fun _ => ⟨0xFFFF, 0xFFFF, 0x7fffffff⟩⟩ [⟨0, 0, 0⟩, ⟨0, 0, 1⟩] (by decide)
    (by decide)
  exact absurd hoff (by decide)

end ZealBringup.Hc
