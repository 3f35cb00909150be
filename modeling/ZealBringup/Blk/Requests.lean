import ZealBringup.Blk.Driver
import ZealBringup.Lib.Overlay

/-!
# The requests of a call

* `VbCall.extent`, `VbCall.Passes`, `VbCall.effect` — the sectors of a call, the bytes that it passes
  for them, and the disk that it leaves.
* `foldl_stores`, `stores_eq` — the stores of a request leave a chain that stands for it, and only the
  last one makes the entry available.
* `plan_send`, `plan_done` — a request is the next piece of its call, and a call that is over got
  through all of its pieces.
-/

namespace ZealBringup.Blk

open Fifo Overlay

/-! ## What it is for -/

/-- The first sector of a call on the disk, its sectors, and its bytes if it writes. -/
def VbCall.extent (d : VbDev) : VbCall → ℕ × ℕ × Option (ℕ → UInt8)
  | .read sector count => (d.lbaBase + sector, count, none)
  | .write src sector count => (d.lbaBase + sector, count, some src)
  | .readAbs sector => (sector, 1, none)
  | .writeAbs src sector => (sector, 1, some src)
  | .readAbsMany sector count => (sector, count, none)
  | .writeAbsMany src sector count => (sector, count, some src)
  | .flushAbs => (0, 0, none)

/-- A call passes some bytes for a sector. -/
def VbCall.Passes (d : VbDev) (c : VbCall) (lba : ℕ) (bytes : Sector) : Prop :=
  ∃ base n src k, c.extent d = (base, n, some src) ∧ k < n ∧ lba = base + k ∧
    bytes = sectorOf src k

/-- The disk that a call leaves when `i` of its sectors are through. -/
def VbCall.effect (d : VbDev) (c : VbCall) (disk : ℕ → Sector) (i : ℕ) : ℕ → Sector :=
  match c.extent d with
  | (base, _, some src) => layRun disk base (sectorOf src) i
  | _ => disk

/-! ## The stores of a request -/

local instance threeDescs : NeZero 3 := ⟨by decide⟩

/-- The chain of a request. -/
def VbReq.chain : VbReq → List VbDesc
  | .read _ n => [⟨.hdr, 16, some 1, false⟩, ⟨.data, n * 512, some 2, true⟩, ⟨.status, 1, none, true⟩]
  | .write _ n _ =>
    [⟨.hdr, 16, some 1, false⟩, ⟨.data, n * 512, some 2, false⟩, ⟨.status, 1, none, true⟩]
  | .flush => [⟨.hdr, 16, some 1, false⟩, ⟨.status, 1, none, true⟩]

/-- The header of a request. -/
def VbReq.hdr : VbReq → UInt32 × ℕ
  | .read lba _ => (0, lba)
  | .write lba _ _ => (1, lba)
  | .flush => (4, 0)

/-- The memory stands for a request. -/
structure Encodes (m : VbMem) (r : VbReq) : Prop where
  chain : chainFrom m.desc 3 0 = r.chain
  hdr : (m.type, m.sector) = r.hdr
  data : ∀ lba n src, r = .write lba n src → ∀ k < n, sectorOf m.data k = sectorOf src k

theorem foldl_data_stores (m : VbMem) (src : ℕ → UInt8) (n : ℕ) :
    ((List.range n).map fun i => VbStore.data i (src i)).foldl VbStore.apply m =
      { m with data := layRun m.data 0 src n } := by
  induction n with
  | zero => rw [layRun_zero]; rfl
  | succ n ih =>
    rw [List.range_succ, List.map_append, List.foldl_append, ih, layRun_succ, Nat.zero_add]
    rfl

variable {n : ℕ}

theorem sectorOf_layRun (data src : ℕ → UInt8) {k : ℕ} (h : k < n) :
    sectorOf (layRun data 0 src (n * 512)) k = sectorOf src k := by
  funext x
  have hx := x.isLt
  unfold sectorOf layRun
  rw [if_pos (by omega), Nat.sub_zero]

/-- **The stores of a request leave a chain that stands for it.** -/
theorem foldl_stores (m : VbMem) (r : VbReq) (next : VbIndex) :
    Encodes ((r.stores next).foldl VbStore.apply m) r ∧
      ((r.stores next).foldl VbStore.apply m).availIdx = next ∧
      ((r.stores next).foldl VbStore.apply m).usedIdx = m.usedIdx := by
  cases r with
  | read lba n =>
    refine ⟨⟨by simp [VbReq.stores, rwStores, dataStores, VbStore.apply, chainFrom, VbReq.chain], rfl, ?_⟩, rfl,
      rfl⟩
    rintro _ _ _ ⟨⟩
  | write lba n src =>
    have hfold : (((VbReq.write lba n src).stores next).foldl VbStore.apply m) =
        { m with
          type := 1, sector := lba, status := 0xff, availIdx := next
          data := layRun m.data 0 src (n * 512)
          desc := Function.update (Function.update (Function.update m.desc
            0 ⟨.hdr, 16, some 1, false⟩) 1 ⟨.data, n * 512, some 2, false⟩)
            2 ⟨.status, 1, none, true⟩ } := by
      unfold VbReq.stores rwStores dataStores
      rw [List.foldl_append, List.foldl_append]
      dsimp only
      rw [foldl_data_stores]
      rfl
    rw [hfold]
    refine ⟨⟨by simp [chainFrom, VbReq.chain], rfl, ?_⟩, rfl, rfl⟩
    rintro _ _ _ ⟨⟩ k hk
    exact sectorOf_layRun m.data src hk
  | flush =>
    refine ⟨⟨by simp [VbReq.stores, flushStores, VbStore.apply, chainFrom, VbReq.chain], rfl, ?_⟩, rfl,
      rfl⟩
    rintro _ _ _ ⟨⟩

/-- A store that does not make an entry available. -/
def VbStore.Quiet (st : VbStore) : Prop := ∀ n, st ≠ .availIdx n

theorem VbStore.Quiet.apply {st : VbStore} (h : st.Quiet) (m : VbMem) :
    (st.apply m).availIdx = m.availIdx ∧ (st.apply m).usedIdx = m.usedIdx := by
  cases st with
  | availIdx n => exact absurd rfl (h n)
  | _ => exact ⟨rfl, rfl⟩

theorem rwStores_eq (lba n : ℕ) (src : Option (ℕ → UInt8)) (next : VbIndex) :
    ∃ body, rwStores lba n src next = body ++ [.availIdx next] ∧ ∀ st ∈ body, st.Quiet := by
  refine ⟨[.type (if src.isSome then 1 else 0), .sector lba, .status 0xff] ++ dataStores n src ++
    [.desc 0 ⟨.hdr, 16, some 1, false⟩, .desc 1 ⟨.data, n * 512, some 2, src.isNone⟩,
      .desc 2 ⟨.status, 1, none, true⟩], by simp [rwStores], ?_⟩
  intro st hst m heq
  subst heq
  cases src with
  | none => simp [dataStores] at hst
  | some src => simp [dataStores] at hst

/-- **Only the last store makes the entry available.** -/
theorem stores_eq (r : VbReq) (next : VbIndex) :
    ∃ body, r.stores next = body ++ [.availIdx next] ∧ ∀ st ∈ body, st.Quiet := by
  cases r with
  | read lba n => exact rwStores_eq lba n none next
  | write lba n src => exact rwStores_eq lba n (some src) next
  | flush =>
    refine ⟨(flushStores next).dropLast, rfl, ?_⟩
    intro st hst m heq
    subst heq
    simp [flushStores] at hst

theorem foldl_quiet {body : List VbStore} (h : ∀ st ∈ body, st.Quiet) (m : VbMem) :
    (body.foldl VbStore.apply m).availIdx = m.availIdx ∧
      (body.foldl VbStore.apply m).usedIdx = m.usedIdx := by
  induction body generalizing m with
  | nil => exact ⟨rfl, rfl⟩
  | cons st body ih =>
    obtain ⟨hst, hbody⟩ := List.forall_mem_cons.mp h
    obtain ⟨h1, h2⟩ := ih hbody (st.apply m)
    obtain ⟨h3, h4⟩ := hst.apply m
    exact ⟨h1.trans h3, h2.trans h4⟩

/-! ## The requests of a call -/

/-- The sectors that a call has to get through; a flush counts as one. -/
def VbCall.size (d : VbDev) : VbCall → ℕ
  | .flushAbs => 1
  | c => (c.extent d).2.1

/-- A request is the next piece of a call. -/
def VbReq.PieceOf (d : VbDev) (c : VbCall) (i : ℕ) : VbReq → Prop
  | .read lba n => ∃ base m, c.extent d = (base, m, none) ∧ c ≠ .flushAbs ∧ lba = base + i ∧ i + n ≤ m
  | .write lba n src => ∃ base m p, c.extent d = (base, m, some p) ∧ lba = base + i ∧ i + n ≤ m ∧
      ∀ x, src x = p (i * 512 + x)
  | .flush => c = .flushAbs ∧ i = 0

/-- A call can stop after `i` sectors: the absolute ones and the flush send one request. -/
def VbCall.Stops (d : VbDev) (c : VbCall) (i : ℕ) : Prop :=
  match c with
  | .read _ _ => i ≤ c.size d
  | .write _ _ _ => i ≤ c.size d
  | _ => i = 0 ∨ i = c.size d

variable {d : VbDev} {sector : ℕ} {src : Option (ℕ → UInt8)}

theorem rwRequest_some {absolute : Bool} {req : VbReq}
    (h : rwRequest d sector n src absolute = some req) :
    req = .rw (if absolute then sector else d.lbaBase + sector) n src := by
  unfold rwRequest at h
  dsimp only at h
  by_cases hbad : (d.ready = false ∧ d.up = false) ∨ n = 0 ∨
      sector ≥ (if absolute then d.fullCapacity else d.capacity) ∨
      n > (if absolute then d.fullCapacity else d.capacity) - sector
  · rw [if_pos hbad] at h
    cases h
  · rw [if_neg hbad] at h
    by_cases hcap : d.capacity = 0
    · rw [if_pos hcap] at h
      cases h
    · rw [if_neg hcap] at h
      by_cases hroom : n > d.dataCapacity / 512
      · rw [if_pos hroom] at h
        cases h
      · rw [if_neg hroom] at h
        exact (Option.some.inj h).symm

theorem plan_of_send {o : Option VbReq} {req : VbReq} (h : VbPlan.of o = .send req) :
    o = some req := by
  cases o with
  | none => cases h
  | some r =>
    cases h
    rfl

theorem plan_of_done {o : Option VbReq} : VbPlan.of o ≠ .done true := by
  cases o <;> simp [VbPlan.of]

variable {c : VbCall} {i : ℕ}

theorem pieceOf_rw {base m : ℕ} (hext : c.extent d = (base, m, src)) (hflush : c ≠ .flushAbs)
    (hle : i + n ≤ m) :
    (VbReq.rw (base + i) n (src.map fun p x => p (i * 512 + x))).PieceOf d c i := by
  cases src with
  | none => exact ⟨base, m, hext, hflush, rfl, hle⟩
  | some p => exact ⟨base, m, p, hext, rfl, hle, fun _ => rfl⟩

theorem count_rw (lba n : ℕ) (src : Option (ℕ → UInt8)) : (VbReq.rw lba n src).count = n := by
  cases src <;> rfl

variable {r : VbReq}

/-- **A round of the loop.** -/
theorem batchPlan_send (h : batchPlan d sector n src i = .send r)
    (hext : c.extent d = (d.lbaBase + sector, n, src)) (hflush : c ≠ .flushAbs) :
    r.PieceOf d c i ∧ i + r.count ≤ n := by
  unfold batchPlan at h
  dsimp only at h
  by_cases hi : i < n
  · rw [if_pos hi] at h
    by_cases hmax : d.dataCapacity / 512 = 0
    · rw [if_pos hmax] at h
      cases h
    · rw [if_neg hmax] at h
      have hreq := rwRequest_some (plan_of_send h)
      rw [if_neg Bool.false_ne_true, ← Nat.add_assoc] at hreq
      subst hreq
      have hle : i + (if n - i > d.dataCapacity / 512 then d.dataCapacity / 512 else n - i) ≤ n := by
        split_ifs <;> omega
      rw [count_rw]
      exact ⟨pieceOf_rw hext hflush hle, hle⟩
  · rw [if_neg hi] at h
    cases h

/-- **The request of an absolute call.** -/
theorem absPlan_send (h : absPlan d sector n src i = .send r)
    (hext : c.extent d = (sector, n, src)) (hflush : c ≠ .flushAbs) :
    r.PieceOf d c i ∧ i + r.count = n := by
  unfold absPlan at h
  by_cases hi : i = 0
  · subst hi
    rw [if_neg (by simp)] at h
    split_ifs at h
    have hreq := rwRequest_some (plan_of_send h)
    rw [if_pos rfl] at hreq
    subst hreq
    have hsrc : (src.map fun p x => p (0 * 512 + x)) = src := by simp
    have hp := pieceOf_rw (i := 0) hext hflush (Nat.zero_add n).le
    rw [hsrc] at hp
    rw [count_rw]
    exact ⟨hp, Nat.zero_add n⟩
  · rw [if_pos hi] at h
    cases h

/-- **A request is the next piece of its call.** -/
theorem plan_send (h : c.plan d i = .send r) :
    r.PieceOf d c i ∧ c.Stops d (i + r.count) := by
  cases c with
  | read sector n => exact batchPlan_send h rfl (by simp)
  | write src sector n => exact batchPlan_send h rfl (by simp)
  | readAbs sector => exact (absPlan_send h rfl (by simp)).imp_right Or.inr
  | writeAbs src sector => exact (absPlan_send h rfl (by simp)).imp_right Or.inr
  | readAbsMany sector n => exact (absPlan_send h rfl (by simp)).imp_right Or.inr
  | writeAbsMany src sector n => exact (absPlan_send h rfl (by simp)).imp_right Or.inr
  | flushAbs =>
    unfold VbCall.plan at h
    by_cases hi : i = 0
    · subst hi
      rw [if_neg (by simp)] at h
      split_ifs at h
      cases h
      exact ⟨⟨rfl, rfl⟩, Or.inr rfl⟩
    · rw [if_pos hi] at h
      cases h

theorem batchPlan_done (h : batchPlan d sector n src i = .done true) : n ≤ i := by
  unfold batchPlan at h
  dsimp only at h
  by_cases hi : i < n
  · rw [if_pos hi] at h
    split_ifs at h
    · cases h
    all_goals exact absurd h plan_of_done
  · exact not_lt.mp hi

theorem absPlan_done (h : absPlan d sector n src i = .done true) : i ≠ 0 := by
  unfold absPlan at h
  by_cases hi : i = 0
  · rw [if_neg (not_not_intro hi)] at h
    split_ifs at h
    · cases h
    · exact absurd h plan_of_done
  · exact hi

/-- **A call that is over got through all of its sectors.** -/
theorem plan_done (h : c.plan d i = .done true) (hs : c.Stops d i) : i = c.size d := by
  cases c with
  | read sector n => exact le_antisymm hs (batchPlan_done h)
  | write src sector n => exact le_antisymm hs (batchPlan_done h)
  | readAbs sector => exact hs.resolve_left (absPlan_done h)
  | writeAbs src sector => exact hs.resolve_left (absPlan_done h)
  | readAbsMany sector n => exact hs.resolve_left (absPlan_done h)
  | writeAbsMany src sector n => exact hs.resolve_left (absPlan_done h)
  | flushAbs =>
    refine hs.resolve_left ?_
    rintro rfl
    unfold VbCall.plan at h
    rw [if_neg (by simp)] at h
    split_ifs at h
    all_goals cases h

end ZealBringup.Blk
