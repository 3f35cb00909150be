import ZealBringup.Blk.Requests

/-!
# Requests are isolated while none is left behind

A call gets exactly its own operation in every run in which no call sends a request while the device
still owns the chain.

* `VbDone.Right` — a successful call had its own operation done.
* `RunWaits` — every call that sends a request finds the earlier ones completed.
* `VbJobOk`, `VbSys.Inv` — what a job has fetched and done, and where the system is.
* `vbRun_isolated` — every run that waits is isolated.
* `late_store` — in a run that does not, a sector receives bytes that no call passed for it.
-/

namespace ZealBringup.Blk

open Fifo Overlay

/-! ## What is shown -/

/-- A call that reports success had exactly its own operation done. -/
structure VbDone.Right (d : VbDev) (r : VbDone) : Prop where
  disk : r.ok = true → r.after = r.call.effect d r.before (r.call.extent d).2.1
  read : r.ok = true → (r.call.extent d).2.2 = none →
    ∀ k < (r.call.extent d).2.1, sectorOf r.buf k = r.after ((r.call.extent d).1 + k)
  flush : r.ok = true → r.call = .flushAbs → r.durable = r.after

/-- A call that sends a request finds every earlier one completed. -/
def VbSys.Waits (s : VbSys) : VbAct → Prop
  | .call c _ => (∃ req, c.plan s.drv 0 = .send req) → s.mem.usedIdx = s.availIdx
  | _ => True

/-- So does every call of a run. -/
def RunWaits (s : VbSys) : List VbAct → Prop
  | [] => True
  | a :: acts => s.Waits a ∧ RunWaits (vbStep s a) acts


/-! ## A job -/

/-- The disk that a request leaves when `i` of its sectors are through. -/
def VbReq.effect (disk : ℕ → Sector) (i : ℕ) : VbReq → ℕ → Sector
  | .write lba _ src => layRun disk lba (sectorOf src) i
  | _ => disk

/-- The sectors that a request moves. -/
def VbReq.moves : VbReq → ℕ
  | .read _ n => n
  | .write _ n _ => n
  | .flush => 0

/-- The first sectors that a read moves are in the window. -/
def VbReq.Loaded (r : VbReq) (m : VbMem) (disk : ℕ → Sector) (i : ℕ) : Prop :=
  ∀ lba n, r = .read lba n → ∀ k < i, sectorOf m.data k = disk (lba + k)

/-- A request was done. -/
structure VbReq.Performed (r : VbReq) (m : VbMem) (disk₀ disk durable : ℕ → Sector) : Prop where
  done : disk = r.effect disk₀ r.moves
  loaded : r.Loaded m disk r.moves
  flushed : r = .flush → durable = disk

/-- What a job has fetched and done is what its request asks for. -/
structure VbJobOk (m : VbMem) (r : VbReq) (disk₀ disk durable : ℕ → Sector) (j : VbJob) : Prop where
  chain : ∀ c, j.chain = some c → c = r.chain
  hdr : ∀ h, j.hdr = some h → h = r.hdr
  moved : j.moved ≤ r.moves
  done : disk = r.effect disk₀ j.moved
  loaded : r.Loaded m disk j.moved
  flushed : j.flushed = true → r = .flush ∧ durable = disk
  status : ∀ v, j.status = some v → m.status = v ∧ (v = 0 → r.Performed m disk₀ disk durable)

variable {m : VbMem} {r : VbReq} {disk₀ disk durable : ℕ → Sector} {j : VbJob}

variable {lba n : ℕ}

/-- **The transfer of a job is that of its request.** -/
theorem VbJobOk.transfer (h : VbJobOk m r disk₀ disk durable j) {write : Bool}
    (ht : j.transfer = some (lba, n, write)) :
    (r = .read lba n ∧ write = false) ∨ ∃ src, r = .write lba n src ∧ write = true := by
  unfold VbJob.transfer at ht
  rcases hchain : j.chain with _ | c
  · rw [hchain] at ht
    cases ht
  · rcases hhdr : j.hdr with _ | hd
    · rw [hchain, hhdr] at ht
      rcases hd : dataOf c with _ | ⟨n', w'⟩ <;> rw [Option.bind_some, hd] at ht
      · cases ht
      · cases w' <;> cases ht
    · obtain rfl := h.chain c hchain
      obtain rfl := h.hdr hd hhdr
      rw [hchain, hhdr] at ht
      cases r with
      | read lba' n' =>
        simp only [Option.bind_some, VbReq.chain, dataOf, VbReq.hdr, and_self, if_true,
          Nat.mul_div_cancel n' (show 0 < 512 by decide), Option.some.injEq, Prod.mk.injEq] at ht
        obtain ⟨rfl, rfl, rfl⟩ := ht
        exact Or.inl ⟨rfl, rfl⟩
      | write lba' n' src =>
        simp only [Option.bind_some, VbReq.chain, dataOf, VbReq.hdr, and_self, if_true,
          Nat.mul_div_cancel n' (show 0 < 512 by decide), Option.some.injEq, Prod.mk.injEq] at ht
        obtain ⟨rfl, rfl, rfl⟩ := ht
        exact Or.inr ⟨src, rfl, rfl⟩
      | flush => cases ht

/-- A job that is complete has done its request. -/
theorem VbJobOk.performed (h : VbJobOk m r disk₀ disk durable j) (hc : j.complete = true) :
    r.Performed m disk₀ disk durable := by
  unfold VbJob.complete at hc
  rcases ht : j.transfer with _ | ⟨lba, n, w⟩
  · rw [ht] at hc
    obtain ⟨rfl, hflushed⟩ := h.flushed hc
    refine ⟨h.done, ?_, fun _ => hflushed⟩
    rintro _ _ ⟨⟩
  · rw [ht] at hc
    have hmoved : j.moved = n := of_decide_eq_true hc
    have hall : j.moved = r.moves := by
      obtain ⟨rfl, _⟩ | ⟨src, rfl, _⟩ := h.transfer ht
      · exact hmoved
      · exact hmoved
    refine ⟨hall ▸ h.done, hall ▸ h.loaded, ?_⟩
    rintro rfl
    obtain ⟨hr, _⟩ | ⟨src, hr, _⟩ := h.transfer ht
    · cases hr
    · cases hr

/-- A job that flushes is a flush. -/
theorem VbJobOk.flushes (h : VbJobOk m r disk₀ disk durable j) (hf : j.flushes = true) :
    r = .flush := by
  unfold VbJob.flushes at hf
  rcases hchain : j.chain with _ | c
  · rw [hchain] at hf
    cases hf
  · obtain rfl := h.chain c hchain
    rw [hchain] at hf
    cases r with
    | read lba n => cases hf
    | write lba n src => cases hf
    | flush => rfl

theorem sectorOf_layIn_self (data : ℕ → UInt8) (k : ℕ) (b : Sector) :
    sectorOf (layIn data k b) k = b := by
  funext x
  have hx := x.isLt
  have hdiv : (k * 512 + x.val) / 512 = k := by omega
  have hmod : (k * 512 + x.val) % 512 = x.val := by omega
  unfold sectorOf layIn
  rw [if_pos hdiv]
  exact congrArg b (Fin.ext hmod)

theorem sectorOf_layIn_of_ne (data : ℕ → UInt8) {k i : ℕ} (b : Sector) (h : i ≠ k) :
    sectorOf (layIn data k b) i = sectorOf data i := by
  funext x
  have hx := x.isLt
  unfold sectorOf layIn
  exact if_neg (by omega)

/-- **A sector that is read.** -/
theorem VbJobOk.load (h : VbJobOk m (.read lba n) disk₀ disk durable j) (hlt : j.moved < n)
    (hs : j.status = none) :
    VbJobOk { m with data := layIn m.data j.moved (disk (lba + j.moved)) } (.read lba n) disk₀ disk
      durable { j with moved := j.moved + 1 } := by
  refine ⟨h.chain, h.hdr, hlt, h.done, ?_, h.flushed, ?_⟩
  · rintro _ _ ⟨⟩ k hk
    have hle : k < j.moved + 1 := hk
    by_cases heq : k = j.moved
    · subst heq
      exact sectorOf_layIn_self _ _ _
    · dsimp only
      rw [sectorOf_layIn_of_ne _ _ heq]
      exact h.loaded lba n rfl k (by omega)
  · intro v hv
    rw [hs] at hv
    cases hv

/-- **A sector that is written.** -/
theorem VbJobOk.store {src : ℕ → UInt8} {bytes : Sector}
    (h : VbJobOk m (.write lba n src) disk₀ disk durable j) (hlt : j.moved < n)
    (hs : j.status = none) (hbytes : bytes = sectorOf src j.moved) :
    VbJobOk m (.write lba n src) disk₀ (Function.update disk (lba + j.moved) bytes) durable
      { j with moved := j.moved + 1 } := by
  refine ⟨h.chain, h.hdr, hlt, ?_, ?_, ?_, ?_⟩
  · have hdone : disk = layRun disk₀ lba (sectorOf src) j.moved := h.done
    rw [hbytes, hdone]
    exact (layRun_succ disk₀ lba (sectorOf src) j.moved).symm
  · rintro _ _ ⟨⟩
  · intro hf
    cases (h.flushed hf).1
  · intro v hv
    rw [hs] at hv
    cases hv

/-! ## The system -/

variable {s : VbSys} {a : VbAct}

/-- The running call got through `i` of its sectors, and `disk₀` is the disk at that moment. -/
structure FrameOk (s : VbSys) (disk₀ : ℕ → Sector) : Prop where
  mem : s.frame.call ∈ s.calls
  stops : s.frame.call.Stops s.drv s.frame.i
  done : disk₀ = s.frame.call.effect s.drv s.frame.before s.frame.i
  loaded : (s.frame.call.extent s.drv).2.2 = none →
    ∀ k < s.frame.i, k < (s.frame.call.extent s.drv).2.1 → sectorOf s.frame.buf k = disk₀ ((s.frame.call.extent s.drv).1 + k)

/-- A request that some call sent. -/
def VbSys.Sent (s : VbSys) (r : VbReq) : Prop :=
  ∀ lba n src, r = .write lba n src → ∀ k < n, ∃ c ∈ s.calls,
    c.Passes s.drv (lba + k) (sectorOf src k)

/-- No entry is with the device. -/
structure VbSys.Clear (s : VbSys) : Prop where
  jobs : s.jobs = []
  taken : s.taken = s.mem.availIdx
  used : s.mem.usedIdx = s.mem.availIdx
  avail : s.availIdx = s.mem.availIdx

/-- One entry is with the device, and the chain stands for its request. -/
structure VbSys.Owned (s : VbSys) (r : VbReq) (disk₀ : ℕ → Sector) : Prop where
  encodes : Encodes s.mem r
  sent : s.Sent r
  used : s.mem.availIdx = s.mem.usedIdx + 1
  avail : s.availIdx = s.mem.availIdx
  jobs : (s.jobs = [] ∧ s.taken = s.mem.usedIdx ∧ s.disk = disk₀) ∨
    ∃ j, s.jobs = [j] ∧ s.taken = s.mem.availIdx ∧ VbJobOk s.mem r disk₀ s.disk s.durable j

/-- The request is the next piece of the running call. -/
def VbSys.Next (s : VbSys) (r : VbReq) : Prop :=
  r.PieceOf s.drv s.frame.call s.frame.i ∧ s.frame.call.Stops s.drv (s.frame.i + r.count)

/-- Where the driver is, and what the device has. -/
inductive VbSys.Stage (s : VbSys) : Prop where
  | clear (h : s.phase = .idle) (hclear : s.Clear)
  | left (r : VbReq) (disk₀ : ℕ → Sector) (h : s.phase = .idle) (howned : s.Owned r disk₀)
  | storing (r : VbReq) (before todo : List VbStore) (m₀ : VbMem) (h : s.phase = .storing r todo)
      (hclear : s.Clear) (hframe : FrameOk s s.disk) (hnext : s.Next r)
      (hstores : r.stores (s.availIdx + 1) = before ++ todo) (hne : todo ≠ [])
      (hmem : s.mem = before.foldl VbStore.apply m₀)
  | waiting (r : VbReq) (spin : ℕ) (disk₀ : ℕ → Sector) (h : s.phase = .waiting r spin)
      (hframe : FrameOk s disk₀) (hnext : s.Next r) (howned : s.Owned r disk₀)
  | answered (r : VbReq) (spin : ℕ) (disk₀ : ℕ → Sector) (h : s.phase = .waiting r spin)
      (hframe : FrameOk s disk₀) (hnext : s.Next r) (hclear : s.Clear)
      (hdone : s.mem.status = 0 → r.Performed s.mem disk₀ s.disk s.durable)

/-- The invariant of a run. -/
structure VbSys.Inv (s : VbSys) : Prop where
  stage : s.Stage
  ended : ∀ r ∈ s.ended, r.Right s.drv
  stored : ∀ p ∈ s.stored, ∃ c ∈ s.calls, c.Passes s.drv p.1 p.2

theorem index_succ_ne (i : VbIndex) : i + 1 ≠ i := by
  intro h
  have h0 : (1 : VbIndex) = 0 := add_eq_left.mp h
  exact absurd h0 (by decide)

/-- A piece of a running call is sent by it. -/
theorem VbSys.Next.sent (hn : s.Next r) (hmem : s.frame.call ∈ s.calls) : s.Sent r := by
  rintro lba n src rfl k hk
  obtain ⟨⟨base, m, p, hext, rfl, hle, hsrc⟩, _⟩ := hn
  refine ⟨_, hmem, base, m, p, s.frame.i + k, hext, by omega, Nat.add_assoc _ _ _, ?_⟩
  funext x
  unfold sectorOf
  rw [hsrc, Nat.add_mul, Nat.add_assoc]

/-! ## The device -/

/-- What a step of the device leaves alone. -/
structure SameDriver (s s' : VbSys) : Prop where
  drv : s'.drv = s.drv
  phase : s'.phase = s.phase
  frame : s'.frame = s.frame
  calls : s'.calls = s.calls
  ended : s'.ended = s.ended

/-- The acts of the device. -/
def VbAct.Device : VbAct → Prop
  | .call _ _ => False
  | .run => False
  | _ => True

/-- A device without an entry does nothing. -/
theorem vbStep_clear (h : s.Clear) (ha : a.Device) : vbStep s a = s := by
  have hjobs : ∀ k : ℕ, s.jobs[k]? = none := by
    intro k
    rw [h.jobs]
    rfl
  cases a with
  | call c buf => exact absurd ha id
  | run => exact absurd ha id
  | take => exact if_pos h.taken
  | fetchChain k => rw [vbStep, hjobs]
  | fetchHdr k => rw [vbStep, hjobs]
  | move k => rw [vbStep, hjobs]
  | flush k => rw [vbStep, hjobs]
  | status k v => rw [vbStep, hjobs]
  | complete k => rw [vbStep, hjobs]

/-- What a step of the device makes of an entry: it is still there, or it is done. -/
def Worked (s : VbSys) (r : VbReq) (disk₀ : ℕ → Sector) : Prop :=
  s.Owned r disk₀ ∨
    s.Clear ∧ (s.mem.status = 0 → r.Performed s.mem disk₀ s.disk s.durable)

variable {s' : VbSys}

/-- A system with the same indices and a job that is well is still owned. -/
theorem VbSys.Owned.work (h : s.Owned r disk₀) (hdrv : s'.drv = s.drv)
    (hcalls : s'.calls = s.calls) (havail : s'.availIdx = s.availIdx)
    (hidx : s'.mem.availIdx = s.mem.availIdx ∧ s'.mem.usedIdx = s.mem.usedIdx)
    (hencodes : Encodes s'.mem r) (hjobs : s'.jobs = [j]) (htaken : s'.taken = s'.mem.availIdx)
    (hj : VbJobOk s'.mem r disk₀ s'.disk s'.durable j) : s'.Owned r disk₀ := by
  refine ⟨hencodes, ?_, ?_, ?_, Or.inr ⟨j, hjobs, htaken, hj⟩⟩
  · unfold VbSys.Sent
    rw [hdrv, hcalls]
    exact h.sent
  · rw [hidx.1, hidx.2]
    exact h.used
  · rw [havail, hidx.1]
    exact h.avail

/-- What a step of the device may do to an entry. -/
structure DeviceDone (s s' : VbSys) (r : VbReq) (disk₀ : ℕ → Sector) : Prop where
  same : SameDriver s s'
  worked : Worked s' r disk₀
  stored : ∀ p ∈ s'.stored, p ∈ s.stored ∨ ∃ c ∈ s.calls, c.Passes s.drv p.1 p.2

theorem DeviceDone.refl (h : s.Owned r disk₀) : DeviceDone s s r disk₀ :=
  ⟨⟨rfl, rfl, rfl, rfl, rfl⟩, Or.inl h, fun _ hp => Or.inl hp⟩

/-- **A sector is moved.** -/
theorem moveSector_done (h : s.Owned r disk₀) (hjobs : s.jobs = [j])
    (htaken : s.taken = s.mem.availIdx) (hj : VbJobOk s.mem r disk₀ s.disk s.durable j)
    (hs : j.status = none) : DeviceDone s (s.moveSector 0 j) r disk₀ := by
  unfold VbSys.moveSector
  rcases ht : j.transfer with _ | ⟨lba, n, write⟩
  · exact .refl h
  · dsimp only
    by_cases hlt : j.moved < n
    · rw [if_pos hlt]
      have hset : ∀ j', s.jobs.set 0 j' = [j'] := by
        intro j'
        rw [hjobs]
        rfl
      obtain ⟨rfl, rfl⟩ | ⟨src, rfl, rfl⟩ := hj.transfer ht
      · rw [if_neg Bool.false_ne_true]
        refine ⟨⟨rfl, rfl, rfl, rfl, rfl⟩, Or.inl ?_, fun _ hp => Or.inl hp⟩
        refine h.work rfl rfl rfl ⟨rfl, rfl⟩ ⟨h.encodes.chain, h.encodes.hdr, ?_⟩ (hset _) htaken
          (hj.load hlt hs)
        rintro _ _ _ ⟨⟩
      · rw [if_pos rfl]
        have hbytes := h.encodes.data lba n src rfl j.moved hlt
        refine ⟨⟨rfl, rfl, rfl, rfl, rfl⟩, Or.inl ?_, ?_⟩
        · exact h.work rfl rfl rfl ⟨rfl, rfl⟩ h.encodes (hset _) htaken (hj.store hlt hs hbytes)
        · intro p hp
          rcases List.mem_append.mp hp with hp | hp
          · exact Or.inl hp
          · right
            rw [List.mem_singleton] at hp
            subst hp
            have hsent := h.sent lba n src rfl j.moved hlt
            rw [← hbytes] at hsent
            exact hsent
    · rw [if_neg hlt]
      exact .refl h

/-- The status byte does not belong to the request. -/
theorem Encodes.status (h : Encodes m r) (v : UInt8) : Encodes { m with status := v } r :=
  ⟨h.chain, h.hdr, h.data⟩

/-- **What the device does with the entry that it has taken.** -/
theorem vbStep_job (h : s.Owned r disk₀) (ha : a.Device) (hjobs : s.jobs = [j])
    (htaken : s.taken = s.mem.availIdx) (hj : VbJobOk s.mem r disk₀ s.disk s.durable j) :
    DeviceDone s (vbStep s a) r disk₀ := by
  have hget : ∀ k : ℕ, s.jobs[k]? = none ∨ k = 0 ∧ s.jobs[k]? = some j := by
    intro k
    rw [hjobs]
    cases k with
    | zero => exact Or.inr ⟨rfl, rfl⟩
    | succ k => exact Or.inl rfl
  have hset : ∀ j', s.jobs.set 0 j' = [j'] := by
    intro j'
    rw [hjobs]
    rfl
  have hsame : ∀ p ∈ s.stored, p ∈ s.stored ∨ ∃ c ∈ s.calls, c.Passes s.drv p.1 p.2 :=
    fun _ hp => Or.inl hp
  cases a with
  | call c buf => exact absurd ha id
  | run => exact absurd ha id
  | take =>
    rw [vbStep, if_pos htaken]
    exact .refl h
  | fetchChain k =>
    rw [vbStep]
    obtain hk | ⟨rfl, hk⟩ := hget k <;> rw [hk]
    · exact .refl h
    · dsimp only
      split_ifs with hc
      · refine ⟨⟨rfl, rfl, rfl, rfl, rfl⟩, Or.inl ?_, hsame⟩
        refine h.work rfl rfl rfl ⟨rfl, rfl⟩ h.encodes (hset _) htaken
          ⟨?_, hj.hdr, hj.moved, hj.done, hj.loaded, hj.flushed, hj.status⟩
        rintro c ⟨⟩
        exact h.encodes.chain
      · exact .refl h
  | fetchHdr k =>
    rw [vbStep]
    obtain hk | ⟨rfl, hk⟩ := hget k <;> rw [hk]
    · exact .refl h
    · dsimp only
      split_ifs with hc
      · refine ⟨⟨rfl, rfl, rfl, rfl, rfl⟩, Or.inl ?_, hsame⟩
        refine h.work rfl rfl rfl ⟨rfl, rfl⟩ h.encodes (hset _) htaken
          ⟨hj.chain, ?_, hj.moved, hj.done, hj.loaded, hj.flushed, hj.status⟩
        rintro c ⟨⟩
        exact h.encodes.hdr
      · exact .refl h
  | move k =>
    rw [vbStep]
    obtain hk | ⟨rfl, hk⟩ := hget k <;> rw [hk]
    · exact .refl h
    · dsimp only
      split_ifs with hs
      · exact moveSector_done h hjobs htaken hj hs
      · exact .refl h
  | flush k =>
    rw [vbStep]
    obtain hk | ⟨rfl, hk⟩ := hget k <;> rw [hk]
    · exact .refl h
    · dsimp only
      split_ifs with hs
      · refine ⟨⟨rfl, rfl, rfl, rfl, rfl⟩, Or.inl ?_, hsame⟩
        have hflush := hj.flushes hs.2
        refine h.work rfl rfl rfl ⟨rfl, rfl⟩ h.encodes (hset _) htaken
          ⟨hj.chain, hj.hdr, hj.moved, hj.done, hj.loaded, fun _ => ⟨hflush, rfl⟩, ?_⟩
        intro v hv
        have hv' : j.status = some v := hv
        rw [hs.1] at hv'
        cases hv'
      · exact .refl h
  | status k v =>
    rw [vbStep]
    obtain hk | ⟨rfl, hk⟩ := hget k <;> rw [hk]
    · exact .refl h
    · dsimp only
      split_ifs with hs
      · refine ⟨⟨rfl, rfl, rfl, rfl, rfl⟩, Or.inl ?_, hsame⟩
        refine h.work rfl rfl rfl ⟨rfl, rfl⟩ (h.encodes.status v) (hset _) htaken
          ⟨hj.chain, hj.hdr, hj.moved, hj.done, hj.loaded, hj.flushed, ?_⟩
        rintro w ⟨⟩
        refine ⟨rfl, ?_⟩
        intro hzero
        have hp := hj.performed (hs.2.2 hzero)
        exact ⟨hp.done, hp.loaded, hp.flushed⟩
      · exact .refl h
  | complete k =>
    rw [vbStep]
    obtain hk | ⟨rfl, hk⟩ := hget k <;> rw [hk]
    · exact .refl h
    · dsimp only
      split_ifs with hs
      · exact .refl h
      · obtain ⟨v, hv⟩ := Option.ne_none_iff_exists'.mp hs
        obtain ⟨hmem, hperf⟩ := hj.status v hv
        refine ⟨⟨rfl, rfl, rfl, rfl, rfl⟩, Or.inr ⟨⟨?_, htaken, h.used.symm, h.avail⟩, ?_⟩, hsame⟩
        · dsimp only
          rw [hjobs]
          rfl
        · intro hzero
          have hp := hperf (hmem.symm.trans hzero)
          exact ⟨hp.done, hp.loaded, hp.flushed⟩

/-- **A step of the device with an entry.** -/
theorem vbStep_owned (h : s.Owned r disk₀) (ha : a.Device) : DeviceDone s (vbStep s a) r disk₀ := by
  obtain ⟨hjobs, htaken, hdisk⟩ | ⟨j, hjobs, htaken, hj⟩ := h.jobs
  · have hnone : ∀ k : ℕ, s.jobs[k]? = none := by
      intro k
      rw [hjobs]
      rfl
    cases a with
    | call c buf => exact absurd ha id
    | run => exact absurd ha id
    | take =>
      have hne : s.taken ≠ s.mem.availIdx := by
        rw [htaken, h.used]
        exact (index_succ_ne _).symm
      rw [vbStep, if_neg hne]
      refine ⟨⟨rfl, rfl, rfl, rfl, rfl⟩, Or.inl ?_, fun _ hp => Or.inl hp⟩
      refine h.work (j := ⟨none, none, 0, false, none⟩) rfl rfl rfl ⟨rfl, rfl⟩ h.encodes ?_ ?_ ?_
      · dsimp only
        rw [hjobs]
        rfl
      · dsimp only
        rw [htaken, h.used]
      · refine ⟨?_, ?_, Nat.zero_le _, ?_, ?_, ?_, ?_⟩
        · rintro _ ⟨⟩
        · rintro _ ⟨⟩
        · dsimp only
          rw [hdisk]
          cases r with
          | write lba n src => exact (layRun_zero _ _ _).symm
          | _ => rfl
        · rintro _ _ _ k hk
          exact absurd hk (Nat.not_lt_zero k)
        · rintro ⟨⟩
        · rintro _ ⟨⟩
    | fetchChain k =>
      rw [vbStep, hnone]
      exact .refl h
    | fetchHdr k =>
      rw [vbStep, hnone]
      exact .refl h
    | move k =>
      rw [vbStep, hnone]
      exact .refl h
    | flush k =>
      rw [vbStep, hnone]
      exact .refl h
    | status k v =>
      rw [vbStep, hnone]
      exact .refl h
    | complete k =>
      rw [vbStep, hnone]
      exact .refl h
  · exact vbStep_job h ha hjobs htaken hj

/-! ## The driver -/

/-- **A call that is over.** -/
theorem VbSys.finish_inv {ok : Bool} (hchain : s.Clear ∨ ∃ r disk₀, s.Owned r disk₀)
    (hright : VbDone.Right s.drv ⟨s.frame.call, ok, s.frame.buf, s.frame.before, s.disk, s.durable⟩)
    (hended : ∀ r ∈ s.ended, r.Right s.drv)
    (hstored : ∀ p ∈ s.stored, ∃ c ∈ s.calls, c.Passes s.drv p.1 p.2) : (s.finish ok).Inv := by
  refine ⟨?_, ?_, hstored⟩
  · obtain hc | ⟨r, disk₀, ho⟩ := hchain
    · exact .clear rfl ⟨hc.jobs, hc.taken, hc.used, hc.avail⟩
    · exact .left r disk₀ rfl ⟨ho.encodes, ho.sent, ho.used, ho.avail, ho.jobs⟩
  · intro r hr
    rcases List.mem_append.mp hr with hr | hr
    · exact hended r hr
    · rw [List.mem_singleton] at hr
      subst hr
      exact hright

/-- A call that failed promises nothing. -/
theorem right_false (d : VbDev) (c : VbCall) (buf : ℕ → UInt8) (before after durable : ℕ → Sector) :
    VbDone.Right d ⟨c, false, buf, before, after, durable⟩ :=
  ⟨fun h => absurd h Bool.false_ne_true, fun h => absurd h Bool.false_ne_true,
    fun h => absurd h Bool.false_ne_true⟩

/-- **A call that got through all of its sectors had its operation done.** -/
theorem FrameOk.right {ok : Bool} (h : FrameOk s s.disk)
    (hplan : s.frame.call.plan s.drv s.frame.i = .done ok)
    (hflush : s.frame.call = .flushAbs → s.frame.i ≠ 0 → s.durable = s.disk) :
    VbDone.Right s.drv ⟨s.frame.call, ok, s.frame.buf, s.frame.before, s.disk, s.durable⟩ := by
  cases ok with
  | false => exact right_false _ _ _ _ _ _
  | true =>
    have hsize := plan_done hplan h.stops
    have hdone := h.done
    have hloaded := h.loaded
    have hcall : s.frame.call = .flushAbs ∨
        s.frame.call.size s.drv = (s.frame.call.extent s.drv).2.1 := by
      cases s.frame.call <;> first | exact Or.inl rfl | exact Or.inr rfl
    refine ⟨fun _ => ?_, fun _ hread => ?_, fun _ hc => ?_⟩
    · rcases hcall with hc | hc
      · rw [hc] at hdone
        dsimp only
        rw [hc]
        exact hdone
      · rw [← hc, ← hsize]
        exact hdone
    · rcases hcall with hc | hc
      · dsimp only
        rw [hc]
        intro k hk
        exact absurd hk (Nat.not_lt_zero k)
      · intro k hk
        dsimp only at hk ⊢
        have hi : k < s.frame.i := by
          rw [hsize, hc]
          exact hk
        exact hloaded hread k hi hk
    · refine hflush hc ?_
      dsimp only at hc
      rw [hsize, hc]
      exact Nat.one_ne_zero

/-- **A call that goes on.** -/
theorem VbSys.go_inv (hframe : FrameOk s s.disk)
    (hflush : s.frame.call = .flushAbs → s.frame.i ≠ 0 → s.durable = s.disk)
    (hchain : s.Clear ∨ ∃ r disk₀, s.Owned r disk₀)
    (hclear : (∃ req, s.frame.call.plan s.drv s.frame.i = .send req) → s.Clear)
    (hended : ∀ r ∈ s.ended, r.Right s.drv)
    (hstored : ∀ p ∈ s.stored, ∃ c ∈ s.calls, c.Passes s.drv p.1 p.2) : s.go.Inv := by
  unfold VbSys.go
  rcases hplan : s.frame.call.plan s.drv s.frame.i with ok | req
  · exact s.finish_inv hchain (hframe.right hplan hflush) hended hstored
  · have hc := hclear ⟨req, hplan⟩
    have hnext := plan_send hplan
    obtain ⟨body, hbody, _⟩ := stores_eq req (s.availIdx + 1)
    refine ⟨.storing req [] (req.stores (s.availIdx + 1)) s.mem rfl
      ⟨hc.jobs, hc.taken, hc.used, hc.avail⟩ ⟨hframe.mem, hframe.stops, hframe.done, hframe.loaded⟩
      hnext rfl ?_ rfl, hended, hstored⟩
    rw [hbody]
    simp

/-- The disk that a call leaves when one more of its pieces was done. -/
theorem effect_piece {d : VbDev} {c : VbCall} {i : ℕ} (h : r.PieceOf d c i)
    (before : ℕ → Sector) :
    r.effect (c.effect d before i) r.moves = c.effect d before (i + r.count) := by
  cases r with
  | read lba n =>
    obtain ⟨base, m, hext, _⟩ := h
    unfold VbReq.effect VbCall.effect
    rw [hext]
  | write lba n src =>
    obtain ⟨base, m, p, hext, rfl, _, hsrc⟩ := h
    have hsector : sectorOf src = fun k => sectorOf p (i + k) := by
      funext k x
      unfold sectorOf
      rw [hsrc, Nat.add_mul, Nat.add_assoc]
    unfold VbReq.effect VbCall.effect
    rw [hext]
    dsimp only
    rw [hsector]
    exact layRun_add before base (sectorOf p) i n
  | flush =>
    obtain ⟨rfl, _⟩ := h
    rfl

/-- **The frame after a piece that was done.** -/
theorem FrameOk.piece (h : FrameOk s disk₀) (hnext : s.Next r)
    (hp : r.Performed s.mem disk₀ s.disk s.durable) :
    FrameOk { s with frame := { s.frame with
      i := s.frame.i + r.count
      buf := r.copyOut s.frame.i s.mem.data s.frame.buf } } s.disk := by
  refine ⟨h.mem, hnext.2, ?_, ?_⟩
  · dsimp only
    rw [hp.done, h.done]
    exact effect_piece hnext.1 _
  · intro hread k hk hn
    dsimp only at hread hk hn ⊢
    have hpiece := hnext.1
    cases r with
    | read lba n =>
      obtain ⟨base, m, hext, _, rfl, _⟩ := hpiece
      have hdisk : s.disk = disk₀ := hp.done
      by_cases hold : k < s.frame.i
      · have hkeep : sectorOf (VbReq.copyOut (.read (base + s.frame.i) n) s.frame.i s.mem.data
            s.frame.buf) k = sectorOf s.frame.buf k := by
          funext x
          have hx := x.isLt
          unfold sectorOf VbReq.copyOut
          exact if_neg (by omega)
        rw [hkeep, hdisk]
        exact h.loaded hread k hold hn
      · obtain ⟨k', rfl⟩ := Nat.exists_eq_add_of_le (not_lt.mp hold)
        have hk' : k' < n := by
          have hcount : (VbReq.read (base + s.frame.i) n).count = n := rfl
          omega
        have hnew : sectorOf (VbReq.copyOut (.read (base + s.frame.i) n) s.frame.i s.mem.data
            s.frame.buf) (s.frame.i + k') = sectorOf s.mem.data k' := by
          funext x
          have hx := x.isLt
          unfold sectorOf VbReq.copyOut
          dsimp only
          rw [if_pos (by constructor <;> omega)]
          congr 1
          omega
        rw [hnew, hext, hp.loaded _ _ rfl k' hk', Nat.add_assoc]
    | write lba n src =>
      obtain ⟨base, m, p, hext, _⟩ := hpiece
      rw [hext] at hread
      cases hread
    | flush =>
      rw [hpiece.1] at hn
      exact absurd hn (Nat.not_lt_zero k)

/-! ## A step -/

theorem FrameOk.congr (h : FrameOk s disk₀) (hs : SameDriver s s') :
    FrameOk s' disk₀ := by
  refine ⟨?_, ?_, ?_, ?_⟩
  · rw [hs.frame, hs.calls]
    exact h.mem
  · rw [hs.frame, hs.drv]
    exact h.stops
  · rw [hs.frame, hs.drv]
    exact h.done
  · rw [hs.frame, hs.drv]
    exact h.loaded

theorem VbSys.Next.congr (h : s.Next r) (hs : SameDriver s s') : s'.Next r := by
  unfold VbSys.Next
  rw [hs.frame, hs.drv]
  exact h

/-- **A step of the device.** -/
theorem vbStep_device (h : s.Inv) (ha : a.Device) : (vbStep s a).Inv := by
  have hended : SameDriver s (vbStep s a) → ∀ r ∈ (vbStep s a).ended, r.Right (vbStep s a).drv := by
    intro hs
    rw [hs.ended, hs.drv]
    exact h.ended
  have hstored : ∀ {r disk₀}, DeviceDone s (vbStep s a) r disk₀ →
      ∀ p ∈ (vbStep s a).stored, ∃ c ∈ (vbStep s a).calls, c.Passes (vbStep s a).drv p.1 p.2 := by
    intro r disk₀ hd p hp
    rw [hd.same.calls, hd.same.drv]
    exact (hd.stored p hp).elim (h.stored p) id
  cases h.stage with
  | clear hphase hclear =>
    rw [vbStep_clear hclear ha]
    exact h
  | left r disk₀ hphase howned =>
    have hd := vbStep_owned howned ha
    refine ⟨?_, hended hd.same, hstored hd⟩
    obtain ho | ⟨hc, _⟩ := hd.worked
    · exact .left r disk₀ (hd.same.phase.trans hphase) ho
    · exact .clear (hd.same.phase.trans hphase) hc
  | storing r before todo m₀ hphase hclear =>
    rw [vbStep_clear hclear ha]
    exact h
  | waiting r spin disk₀ hphase hframe hnext howned =>
    have hd := vbStep_owned howned ha
    refine ⟨?_, hended hd.same, hstored hd⟩
    have hphase' := hd.same.phase.trans hphase
    obtain ho | ⟨hc, hdone⟩ := hd.worked
    · exact .waiting r spin disk₀ hphase' (hframe.congr hd.same) (hnext.congr hd.same) ho
    · exact .answered r spin disk₀ hphase' (hframe.congr hd.same) (hnext.congr hd.same) hc hdone
  | answered r spin disk₀ hphase hframe hnext hclear =>
    rw [vbStep_clear hclear ha]
    exact h

variable {todo : List VbStore}

/-- **A store of the driver.** -/
theorem run_storing {before : List VbStore} {m₀ : VbMem} (h : s.Inv)
    (hphase : s.phase = .storing r todo) (hclear : s.Clear) (hframe : FrameOk s s.disk)
    (hnext : s.Next r) (hstores : r.stores (s.availIdx + 1) = before ++ todo) (hne : todo ≠ [])
    (hmem : s.mem = before.foldl VbStore.apply m₀) : s.run.Inv := by
  obtain ⟨body, hbody, hquiet⟩ := stores_eq r (s.availIdx + 1)
  obtain ⟨st, rest, rfl⟩ := List.exists_cons_of_ne_nil hne
  unfold VbSys.run
  rw [hphase]
  dsimp only
  by_cases hrest : rest = []
  · -- the last store hands the chain over
    subst hrest
    obtain ⟨hbefore, hst⟩ := List.append_inj' (hstores.symm.trans hbody) rfl
    subst hbefore
    have hall : st.apply s.mem = (r.stores (s.availIdx + 1)).foldl VbStore.apply m₀ := by
      rw [hstores, List.foldl_append, ← hmem]
      rfl
    obtain ⟨hencodes, havail, hused⟩ := foldl_stores m₀ r (s.availIdx + 1)
    have hkeep := (foldl_quiet hquiet m₀).2
    rw [← hmem] at hkeep
    have husedIdx : (st.apply s.mem).usedIdx = s.availIdx := by
      rw [hall, hused, ← hkeep, hclear.used, hclear.avail]
    have havailIdx : (st.apply s.mem).availIdx = s.availIdx + 1 := by rw [hall, havail]
    rw [if_pos rfl, if_pos rfl]
    refine ⟨.waiting r 0 s.disk rfl ⟨hframe.mem, hframe.stops, hframe.done, hframe.loaded⟩ hnext
      ⟨hall ▸ hencodes, hnext.sent hframe.mem, ?_, havailIdx.symm, Or.inl ⟨hclear.jobs, ?_, rfl⟩⟩,
      h.ended, h.stored⟩
    · exact havailIdx.trans (congrArg (· + 1) husedIdx.symm)
    · exact (hclear.taken.trans hclear.avail.symm).trans husedIdx.symm
  · have hst : st ∈ body := by
      have hlen : before.length < body.length := by
        have hcount := congrArg List.length (hstores.symm.trans hbody)
        rw [List.length_append, List.length_append, List.length_cons, List.length_singleton] at hcount
        have hpos := List.length_pos_of_ne_nil hrest
        omega
      have hget : (body ++ [VbStore.availIdx (s.availIdx + 1)])[before.length]? = some st := by
        rw [← hbody, hstores, List.getElem?_append_right le_rfl, Nat.sub_self]
        rfl
      rw [List.getElem?_append_left hlen] at hget
      exact List.mem_of_getElem? hget
    obtain ⟨havail, hused⟩ := (hquiet st hst).apply s.mem
    rw [if_neg hrest, if_neg hrest]
    refine ⟨.storing r (before ++ [st]) rest m₀ rfl ⟨hclear.jobs, ?_, ?_, ?_⟩
      ⟨hframe.mem, hframe.stops, hframe.done, hframe.loaded⟩ hnext ?_ hrest ?_, h.ended, h.stored⟩
    · exact hclear.taken.trans havail.symm
    · exact (hused.trans hclear.used).trans havail.symm
    · exact hclear.avail.trans havail.symm
    · rw [List.append_assoc]
      exact hstores
    · rw [List.foldl_append, ← hmem]
      rfl

/-- **A step of the driver.** -/
theorem run_inv (h : s.Inv) : s.run.Inv := by
  cases h.stage with
  | clear hphase hclear =>
    unfold VbSys.run
    rw [hphase]
    exact h
  | left r disk₀ hphase howned =>
    unfold VbSys.run
    rw [hphase]
    exact h
  | storing r before todo m₀ hphase hclear hframe hnext hstores hne hmem =>
    exact run_storing h hphase hclear hframe hnext hstores hne hmem
  | waiting r spin disk₀ hphase hframe hnext howned =>
    have hne : s.mem.usedIdx ≠ s.availIdx := by
      rw [howned.avail, howned.used]
      exact (index_succ_ne _).symm
    unfold VbSys.run
    rw [hphase]
    dsimp only
    rw [if_neg hne]
    split_ifs
    · exact ⟨.waiting r (spin + 1) disk₀ rfl
        ⟨hframe.mem, hframe.stops, hframe.done, hframe.loaded⟩ hnext
        ⟨howned.encodes, howned.sent, howned.used, howned.avail, howned.jobs⟩, h.ended, h.stored⟩
    · exact s.finish_inv (Or.inr ⟨r, disk₀, howned⟩) (right_false _ _ _ _ _ _) h.ended h.stored
  | answered r spin disk₀ hphase hframe hnext hclear hdone =>
    unfold VbSys.run
    rw [hphase]
    dsimp only
    rw [if_pos (hclear.used.trans hclear.avail.symm)]
    by_cases hstatus : s.mem.status = 0
    · rw [if_neg (not_not_intro hstatus)]
      have hperf := hdone hstatus
      have hf := hframe.piece hnext hperf
      refine VbSys.go_inv ⟨hf.mem, hf.stops, hf.done, hf.loaded⟩ ?_ (Or.inl ?_) (fun _ => ?_) h.ended
        h.stored
      · intro hcall _
        have hpiece := hnext.1
        dsimp only at hcall
        rw [hcall] at hpiece
        cases r with
        | read lba n =>
          obtain ⟨_, _, _, hno, _⟩ := hpiece
          exact absurd rfl hno
        | write lba n src =>
          obtain ⟨_, _, _, hext, _⟩ := hpiece
          cases hext
        | flush => exact hperf.flushed rfl
      all_goals exact ⟨hclear.jobs, hclear.taken, hclear.used, hclear.avail⟩
    · rw [if_pos hstatus]
      exact s.finish_inv (Or.inl hclear) (right_false _ _ _ _ _ _) h.ended h.stored

/-- **A call begins.** -/
theorem call_inv {c : VbCall} {buf : ℕ → UInt8} (h : s.Inv) (hphase : s.phase = .idle)
    (hw : s.Waits (.call c buf)) :
    (VbSys.go { s with frame := ⟨c, 0, buf, s.disk⟩, calls := s.calls ++ [c] }).Inv := by
  have hmono : ∀ p : ℕ × Sector, (∃ c' ∈ s.calls, c'.Passes s.drv p.1 p.2) →
      ∃ c' ∈ s.calls ++ [c], c'.Passes s.drv p.1 p.2 := by
    rintro p ⟨c', hc', hp⟩
    exact ⟨c', List.mem_append_left _ hc', hp⟩
  have hstops : c.Stops s.drv 0 := by
    cases c <;> first | exact Nat.zero_le _ | exact Or.inl rfl
  have hframe : FrameOk { s with frame := ⟨c, 0, buf, s.disk⟩, calls := s.calls ++ [c] } s.disk := by
    refine ⟨List.mem_append_right _ List.mem_cons_self, hstops, ?_, ?_⟩
    · dsimp only
      unfold VbCall.effect
      split
      · exact (layRun_zero _ _ _).symm
      · rfl
    · intro _ k hk
      exact absurd hk (Nat.not_lt_zero k)
  refine VbSys.go_inv hframe (fun _ hi => absurd rfl hi) ?_ ?_ h.ended
    (fun p hp => hmono p (h.stored p hp))
  · cases h.stage with
    | clear _ hclear => exact Or.inl ⟨hclear.jobs, hclear.taken, hclear.used, hclear.avail⟩
    | left r disk₀ _ ho =>
      refine Or.inr ⟨r, disk₀, ho.encodes, ?_, ho.used, ho.avail, ho.jobs⟩
      intro lba n src hr k hk
      exact hmono (lba + k, sectorOf src k) (ho.sent lba n src hr k hk)
    | storing _ _ _ _ hp => cases hphase.symm.trans hp
    | waiting _ _ _ hp => cases hphase.symm.trans hp
    | answered _ _ _ hp => cases hphase.symm.trans hp
  · intro hsend
    have hidx := hw hsend
    cases h.stage with
    | clear _ hclear => exact ⟨hclear.jobs, hclear.taken, hclear.used, hclear.avail⟩
    | left r disk₀ _ ho =>
      rw [ho.avail, ho.used] at hidx
      exact absurd hidx.symm (index_succ_ne _)
    | storing _ _ _ _ hp => cases hphase.symm.trans hp
    | waiting _ _ _ hp => cases hphase.symm.trans hp
    | answered _ _ _ hp => cases hphase.symm.trans hp

/-- **Every step of a run that waits keeps the invariant.** -/
theorem vbStep_inv (h : s.Inv) (hw : s.Waits a) : (vbStep s a).Inv := by
  cases a with
  | call c buf =>
    rw [vbStep]
    rcases hphase : s.phase with _ | _ | _
    · exact call_inv h hphase hw
    · exact h
    · exact h
  | run => exact run_inv h
  | take => exact vbStep_device h trivial
  | fetchChain k => exact vbStep_device h trivial
  | fetchHdr k => exact vbStep_device h trivial
  | move k => exact vbStep_device h trivial
  | flush k => exact vbStep_device h trivial
  | status k v => exact vbStep_device h trivial
  | complete k => exact vbStep_device h trivial

theorem vbRun_inv {acts : List VbAct} (h : s.Inv) (hw : RunWaits s acts) : (vbRun s acts).Inv := by
  induction acts generalizing s with
  | nil => exact h
  | cons a acts ih => exact ih (vbStep_inv h hw.1) hw.2

theorem vbStart_inv (drv : VbDev) (disk : ℕ → Sector) : (vbStart drv disk).Inv :=
  ⟨.clear rfl ⟨rfl, rfl, rfl, rfl⟩, by simp [vbStart], by simp [vbStart]⟩

/-! ## A run -/

theorem go_drv (s : VbSys) : s.go.drv = s.drv := by
  unfold VbSys.go
  split <;> rfl

theorem run_drv (s : VbSys) : s.run.drv = s.drv := by
  unfold VbSys.run
  split
  · rfl
  · rfl
  · rfl
  · split_ifs
    · rfl
    · exact go_drv _
    · rfl
    · rfl

theorem vbStep_drv (s : VbSys) (a : VbAct) : (vbStep s a).drv = s.drv := by
  cases a with
  | call c buf =>
    rw [vbStep]
    split
    · exact go_drv _
    · rfl
  | run => exact run_drv s
  | take =>
    rw [vbStep]
    split_ifs <;> rfl
  | move k =>
    rw [vbStep]
    split
    · rfl
    · unfold VbSys.moveSector
      split_ifs
      · split
        · rfl
        · split_ifs <;> rfl
      · rfl
  | _ =>
    rw [vbStep]
    split
    · rfl
    · split_ifs <;> rfl

theorem vbRun_drv (s : VbSys) (acts : List VbAct) : (vbRun s acts).drv = s.drv := by
  induction acts generalizing s with
  | nil => rfl
  | cons a acts ih => exact (ih (vbStep s a)).trans (vbStep_drv s a)

/-- The calls that were over had their own operations done if they succeeded, and every sector received
bytes that a call passed for it. -/
structure Isolated (drv : VbDev) (s : VbSys) : Prop where
  right : ∀ r ∈ s.ended, r.Right drv
  passed : ∀ p ∈ s.stored, ∃ c ∈ s.calls, c.Passes drv p.1 p.2

/-- **Every run in which no request is sent while an earlier one is with the device is isolated.** -/
theorem vbRun_isolated (drv : VbDev) (disk : ℕ → Sector) (acts : List VbAct)
    (hw : RunWaits (vbStart drv disk) acts) : Isolated drv (vbRun (vbStart drv disk) acts) := by
  have hinv := vbRun_inv (vbStart_inv drv disk) hw
  have hdrv : (vbRun (vbStart drv disk) acts).drv = drv := vbRun_drv _ acts
  refine ⟨?_, ?_⟩
  · intro r hr
    have hright := hinv.ended r hr
    rw [hdrv] at hright
    exact hright
  · intro p hp
    have hpassed := hinv.stored p hp
    rw [hdrv] at hpassed
    exact hpassed

/-- A disk of 128 sectors on the PCI bus. -/
def smallDrv : VbDev := ⟨true, true, true, true, 128, 128, 0, 4096⟩

/-- A flush. -/
theorem vbRun_isolated_flush : Isolated smallDrv (vbRun (vbStart smallDrv fun _ _ => 0)
    [.call .flushAbs fun _ => 0, .run, .run, .run, .run, .run, .run, .take, .fetchChain 0,
      .fetchHdr 0, .flush 0, .status 0 0, .complete 0, .run]) :=
  vbRun_isolated smallDrv _ _ ⟨fun _ => rfl, trivial, trivial, trivial, trivial, trivial, trivial,
    trivial, trivial, trivial, trivial, trivial, trivial, trivial, trivial⟩

/-! ## A request left behind -/

variable {req : VbReq}

/-- All stores of a request. -/
theorem vbRun_stores (hphase : s.phase = .storing req todo) (hne : todo ≠ []) :
    vbRun s (List.replicate todo.length .run) =
      { s with mem := todo.foldl VbStore.apply s.mem, availIdx := s.availIdx + 1,
               phase := .waiting req 0 } := by
  induction todo generalizing s with
  | nil => exact absurd rfl hne
  | cons st todo ih =>
    have hstep : vbRun s (List.replicate (st :: todo).length .run) =
        vbRun s.run (List.replicate todo.length .run) := rfl
    have hrun : s.run = { s with
        mem := st.apply s.mem
        availIdx := if todo = [] then s.availIdx + 1 else s.availIdx
        phase := if todo = [] then .waiting req 0 else .storing req todo } := by
      unfold VbSys.run
      rw [hphase]
    rw [hstep, hrun]
    by_cases hnil : todo = []
    · subst hnil
      rfl
    · have hphase' : VbSys.phase { s with
          mem := st.apply s.mem
          availIdx := if todo = [] then s.availIdx + 1 else s.availIdx
          phase := if todo = [] then .waiting req 0 else .storing req todo } = .storing req todo :=
        if_neg hnil
      rw [ih hphase' hnil]
      dsimp only
      rw [if_neg hnil]
      rfl

/-- Looks at a used index that does not move. -/
theorem vbRun_spin {spin : ℕ} (n : ℕ) (hphase : s.phase = .waiting req spin)
    (hused : s.mem.usedIdx ≠ s.availIdx) (hlt : spin + n < req.spins) :
    vbRun s (List.replicate n .run) = { s with phase := .waiting req (spin + n) } := by
  induction n generalizing s spin with
  | zero =>
    rw [Nat.add_zero, ← hphase]
    rfl
  | succ n ih =>
    have hstep : vbRun s (List.replicate (n + 1) .run) = vbRun s.run (List.replicate n .run) := rfl
    have hrun : s.run = { s with phase := .waiting req (spin + 1) } := by
      unfold VbSys.run
      rw [hphase]
      dsimp only
      rw [if_neg hused, if_pos (by omega)]
    have hphase' : VbSys.phase { s with phase := .waiting req (spin + 1) } =
        .waiting req (spin + 1) := rfl
    rw [hstep, hrun, ih hphase' hused (by omega), Nat.add_assoc, Nat.add_comm 1]

/-- **A call whose request the device leaves alone runs out of looks.** -/
theorem vbRun_timeout (hphase : s.phase = .storing req todo) (hne : todo ≠ [])
    (hused : (todo.foldl VbStore.apply s.mem).usedIdx ≠ s.availIdx + 1) (hn : req.spins = n + 1) :
    vbRun s (List.replicate todo.length .run ++ (List.replicate n .run ++ [.run])) =
      VbSys.finish { s with
        mem := todo.foldl VbStore.apply s.mem, availIdx := s.availIdx + 1
        phase := .waiting req n } false := by
  unfold vbRun
  rw [List.foldl_append, List.foldl_append]
  have h1 := vbRun_stores hphase hne
  unfold vbRun at h1
  rw [h1]
  have h2 := vbRun_spin (s := { s with
    mem := todo.foldl VbStore.apply s.mem, availIdx := s.availIdx + 1, phase := .waiting req 0 })
    n rfl hused (by omega)
  unfold vbRun at h2
  rw [h2, Nat.zero_add]
  rw [List.foldl_cons, List.foldl_nil, vbStep]
  unfold VbSys.run
  dsimp only
  rw [if_neg hused, if_neg (by omega)]

/-- A write that the device leaves alone, then the first two stores of the next write, between which
the device does the first one. -/
def lateActs : List VbAct :=
  .call (.write (fun _ => 1) 5 1) (fun _ => 0) ::
    ((List.replicate 519 .run ++ (List.replicate 20000000 .run ++ [.run])) ++
      [.call (.write (fun _ => 2) 7 1) fun _ => 0, .run, .run, .take, .fetchChain 0, .fetchHdr 0,
        .move 0])

theorem plan_small (src : ℕ → UInt8) {sector : ℕ} (h : sector < 128) :
    (VbCall.write src sector 1).plan smallDrv 0 = .send (.write sector 1 src) := by
  have hin : ¬(128 ≤ sector ∨ 128 - sector = 0) := by omega
  simp [VbCall.plan, batchPlan, rwRequest, smallDrv, VbPlan.of, VbReq.rw, hin]

/-- The device does the old entry with the new header. -/
theorem late_move (hdrv : s.drv = smallDrv) (hphase : s.phase = .idle) (hjobs : s.jobs = [])
    (htaken : s.taken ≠ s.mem.availIdx)
    (hchain : chainFrom s.mem.desc 3 0 = VbReq.chain (.write 5 1 fun _ => 1)) :
    let s' := vbRun s [.call (.write (fun _ => 2) 7 1) fun _ => 0, .run, .run, .take, .fetchChain 0,
      .fetchHdr 0, .move 0]
    s'.stored = s.stored ++ [(7, sectorOf s.mem.data 0)] ∧
      s'.calls = s.calls ++ [.write (fun _ => 2) 7 1] := by
  obtain ⟨drv, availIdx, mem, taken, jobs, disk, durable, phase, frame, calls, ended, stored⟩ := s
  dsimp only at hdrv hphase hjobs htaken hchain ⊢
  subst hdrv hphase hjobs
  have hcall : ∀ frame' calls', VbSys.go ⟨smallDrv, availIdx, mem, taken, [], disk, durable, .idle,
      ⟨.write (fun _ => 2) 7 1, 0, frame', disk⟩, calls', ended, stored⟩ =
      ⟨smallDrv, availIdx, mem, taken, [], disk, durable,
        .storing (.write 7 1 fun _ => 2) (rwStores 7 1 (some fun _ => 2) (availIdx + 1)),
        ⟨.write (fun _ => 2) 7 1, 0, frame', disk⟩, calls', ended, stored⟩ := by
    intro _ _
    unfold VbSys.go
    dsimp only
    rw [plan_small _ (by decide)]
    rfl
  simp only [vbRun, List.foldl_cons, List.foldl_nil, vbStep, hcall]
  have hstores : rwStores 7 1 (some fun _ => 2) (availIdx + 1) =
      .type 1 :: .sector 7 :: (rwStores 7 1 (some fun _ => 2) (availIdx + 1)).drop 2 := rfl
  rw [hstores]
  have ht : VbJob.transfer ⟨some (VbReq.chain (.write 5 1 fun _ => 1)), some (1, 7), 0, false, none⟩ =
      some (7, 1, true) := by
    simp [VbJob.transfer, dataOf, VbReq.chain]
  simp [VbSys.run, VbStore.apply, VbSys.setJob, VbSys.moveSector, htaken, hchain, ht]

theorem vbRun_cons_append (s : VbSys) (a : VbAct) (xs ys : List VbAct) :
    vbRun s (a :: (xs ++ ys)) = vbRun (vbRun (vbStep s a) xs) ys := List.foldl_append

/-- **A sector receives bytes that no call passed for it.** -/
theorem late_store : ¬Isolated smallDrv (vbRun (vbStart smallDrv fun _ _ => 0) lateActs) := by
  intro hisolated
  have hlen : ((VbReq.write 5 1 fun _ => 1).stores 1).length = 519 := by
    simp [VbReq.stores, rwStores, dataStores]
  have hne : (VbReq.write 5 1 fun _ => 1).stores 1 ≠ [] := by
    intro h0
    rw [h0] at hlen
    cases hlen
  -- the first call
  obtain ⟨s1, hs1⟩ : ∃ s1, s1 = vbStep (vbStart smallDrv fun _ _ => 0)
      (.call (.write (fun _ => 1) 5 1) fun _ => 0) := ⟨_, rfl⟩
  have hcall : s1 = { vbStart smallDrv fun _ _ => 0 with
      phase := .storing (.write 5 1 fun _ => 1) ((VbReq.write 5 1 fun _ => 1).stores 1)
      frame := ⟨.write (fun _ => 1) 5 1, 0, fun _ => 0, fun _ _ => 0⟩
      calls := [.write (fun _ => 1) 5 1] } := by
    rw [hs1, vbStep]
    dsimp only [vbStart]
    unfold VbSys.go
    dsimp only
    rw [plan_small _ (by decide)]
    rfl
  have hphase : s1.phase = .storing (.write 5 1 fun _ => 1) ((VbReq.write 5 1 fun _ => 1).stores 1) := by
    rw [hcall]
  obtain ⟨hencodes, havail, hused⟩ := foldl_stores s1.mem (.write 5 1 fun _ => 1) 1
  have htimeout := vbRun_timeout hphase hne (n := 20000000) (by
    rw [hused, hcall]
    decide) rfl
  rw [hlen] at htimeout
  obtain ⟨m1, hm1⟩ : ∃ m1, m1 = ((VbReq.write 5 1 fun _ => 1).stores 1).foldl VbStore.apply s1.mem :=
    ⟨_, rfl⟩
  rw [← hm1] at hencodes havail hused htimeout
  -- the second call
  obtain ⟨s2, hs2⟩ : ∃ s2, s2 = VbSys.finish { s1 with
      mem := m1
      availIdx := s1.availIdx + 1
      phase := .waiting (.write 5 1 fun _ => 1) 20000000 } false := ⟨_, rfl⟩
  have hmem : s2.mem = m1 := by
    rw [hs2]
    rfl
  have hrest : s2.drv = smallDrv ∧ s2.phase = .idle ∧ s2.jobs = [] ∧ s2.taken = 0 ∧ s2.stored = [] ∧
      s2.calls = [.write (fun _ => 1) 5 1] := by
    rw [hs2, hcall]
    exact ⟨rfl, rfl, rfl, rfl, rfl, rfl⟩
  obtain ⟨hdrv, hidle, hjobs, htaken, hstored, hcalls⟩ := hrest
  have hrun := vbRun_cons_append (vbStart smallDrv fun _ _ => 0)
    (.call (.write (fun _ => 1) 5 1) fun _ => 0)
    (List.replicate 519 .run ++ (List.replicate 20000000 .run ++ [.run]))
    [.call (.write (fun _ => 2) 7 1) fun _ => 0, .run, .run, .take, .fetchChain 0, .fetchHdr 0,
      .move 0]
  rw [← hs1, htimeout, ← hs2, ← lateActs] at hrun
  have hne2 : s2.taken ≠ s2.mem.availIdx := by
    rw [htaken, hmem, havail]
    decide
  obtain ⟨hend, hpassing⟩ := late_move hdrv hidle hjobs hne2 (hmem ▸ hencodes.chain)
  obtain ⟨c, hc, hp⟩ := hisolated.passed (7, sectorOf s2.mem.data 0) (by
    rw [hrun, hend]
    exact List.mem_append_right _ List.mem_cons_self)
  rw [hrun, hpassing, hcalls] at hc
  have hold : sectorOf s2.mem.data 0 = fun _ => 1 := by
    rw [hmem]
    exact hencodes.data 5 1 _ rfl 0 Nat.one_pos
  obtain ⟨base, n, src, k, hext, hk, hlba, hbytes⟩ := hp
  rw [List.singleton_append, List.mem_cons, List.mem_singleton] at hc
  obtain rfl | rfl := hc
  · cases hext
    have hlba' : 7 = 0 + 5 + k := hlba
    omega
  · cases hext
    have hfirst : (1 : UInt8) = 2 := congrFun (hold.symm.trans hbytes) 0
    exact absurd hfirst (by decide)

end ZealBringup.Blk
