import ZealBringup.Store.Merge

/-!
# Runs of the store

A run is any sequence of operations of the two sides.  A command of the host needs
the machine stopped, so the guest boots again after it, on what the command left.

* `SimAt.step` — one operation, on the machine and on the map.
* `store_refines` — every run from a seeded image.
* `failing_merge_changes_map` — a merge that fails may already have appended.
-/

set_option maxRecDepth 10000

namespace ZealBringup.Store

open CrashDisk LastWrite

/-! ## Operations -/

/-- An operation of the guest or a command of `source-volume.py`. -/
inductive Op where
  | guest (call : AppendCall)
  | guestCompact
  | hostPut (name : PyStr) (data : List UInt8)
  | hostDelete (name : PyStr)
  | hostCompact
  | hostMerge (bundle : List TarMember) (replaceNames : List PyStr)

/-- The next boot, on the image `d`: the device goes on with the outcomes it has left. -/
def Machine.reboot (m : Machine) (d : Disk Sector) : Machine :=
  boot m.vb (fun n => m.outcome (m.commands + n)) d

/-- The boot after a command that leaves an image or raises. -/
def Machine.hosted (m : Machine) : Except PyError (Disk Sector) → Bool × Machine
  | .ok d => (true, m.reboot d)
  | .error _ => (false, m.reboot m.disk)

/-- Whether the operation reports success, and the machine after it. -/
def Op.run : Op → Machine → Bool × Machine
  | guest call, m => (decide ((call.run m).1 = 0), (call.run m).2)
  | guestCompact, m => (decide ((zssCompact m).1 = 0), (zssCompact m).2.2)
  | hostPut name data, m => m.hosted (Store.hostPut m.disk name data)
  | hostDelete name, m => m.hosted (Store.hostDelete m.disk name)
  | hostCompact, m => m.hosted (Store.hostCompact m.disk)
  | hostMerge bundle replaceNames, m =>
      ((Store.hostMerge m.disk bundle replaceNames).1.isNone,
        m.reboot (Store.hostMerge m.disk bundle replaceNames).2)

/-- The operations `ops`, one after the other: their reports and the machine they leave. -/
def runOps : List Op → Machine → List Bool × Machine
  | [], m => ([], m)
  | op :: ops, m =>
      ((op.run m).1 :: (runOps ops (op.run m).2).1, (runOps ops (op.run m).2).2)

/-! ## The same operations on the map -/

/-- What the operation is for. -/
def Op.apply : Op → SourceMap → SourceMap
  | guest call, M => Function.update M call.name (some call.content)
  | guestCompact, M => M
  | hostPut name data, M => Function.update M (hostBytes name) (some (.file data))
  | hostDelete name, M => Function.update M (hostBytes name) (some .tombstone)
  | hostCompact, M => M
  | hostMerge bundle replaceNames, M =>
      (sortedMembers bundle).foldl (SourceMap.mergeMember replaceNames) M

/-- One operation on the map, given what it reports.  Beyond "done or refused" there are two
cases: a merge that stops at a member keeps the members before it, and on a device that
fails commands a guest call may be reported as failed although its record is there. -/
inductive AbsStep (healthy : Prop) : Op → Bool → SourceMap → SourceMap → Prop
  | done (op : Op) (M : SourceMap) : AbsStep healthy op true M (op.apply M)
  | refused (op : Op) (M : SourceMap) : AbsStep healthy op false M M
  | stopped (bundle : List TarMember) (replaceNames : List PyStr) (taken : List TarMember)
      (member : TarMember) (rest : List TarMember) (M : SourceMap)
      (split : sortedMembers bundle = taken ++ member :: rest) :
      AbsStep healthy (.hostMerge bundle replaceNames) false M
        (taken.foldl (SourceMap.mergeMember replaceNames) M)
  | faulted (call : AppendCall) (M : SourceMap) (unhealthy : ¬healthy) :
      AbsStep healthy (.guest call) false M ((Op.guest call).apply M)

/-- A run of operations on the map. -/
inductive AbsRun (healthy : Prop) : List Op → List Bool → SourceMap → SourceMap → Prop
  | nil (M : SourceMap) : AbsRun healthy [] [] M M
  | cons {op : Op} {ok : Bool} {ops : List Op} {oks : List Bool} {M₀ M₁ M₂ : SourceMap}
      (step : AbsStep healthy op ok M₀ M₁) (rest : AbsRun healthy ops oks M₁ M₂) :
      AbsRun healthy (op :: ops) (ok :: oks) M₀ M₂

variable {M : SourceMap}

theorem AbsStep.mono {p q : Prop} {op : Op} {ok : Bool} {M' : SourceMap}
    (h : AbsStep p op ok M M') (hpq : q → p) : AbsStep q op ok M M' := by
  cases h with
  | done => exact .done _ _
  | refused => exact .refused _ _
  | stopped bundle replaceNames taken member rest _ split =>
    exact .stopped bundle replaceNames taken member rest _ split
  | faulted call _ unhealthy => exact .faulted call _ fun hq => unhealthy (hpq hq)

theorem AbsRun.mono {p q : Prop} {ops : List Op} {oks : List Bool} {M' : SourceMap}
    (h : AbsRun p ops oks M M') (hpq : q → p) : AbsRun q ops oks M M' := by
  induction h with
  | nil M => exact .nil M
  | cons step _ ih => exact .cons (step.mono hpq) ih

/-! ## One step -/

section Step

variable {m : Machine} {b : Bank} {tail : ℕ} {M : SourceMap}

theorem SimAt.reboot (h : SimAt m b tail M) : SimAt (m.reboot m.disk) b tail M := by
  obtain ⟨rs, hlog, hclean⟩ := h.log
  obtain ⟨hlog', hview⟩ := @Holds.beyond_tail m (m.reboot m.disk) _ _ _ hlog rfl fun _ _ => rfl
  exact h.unchanged ⟨rs, hlog', hclean⟩ hview

variable {d : Disk Sector}

theorem Machine.Healthy.reboot (h : m.Healthy) : (m.reboot d).Healthy :=
  fun n => h (m.commands + n)

variable {vb : VirtioBlk} {outcome : ℕ → Outcome}

/-- A command of the host scans first. -/
theorem SimAt.scanned {α : Type} {f : Bank × HostScan → Except PyError α} {x : α}
    (h : SimAt (boot vb outcome d) b tail M) (hfull : FullSize vb)
    (hrun : (Store.scan d >>= f) = .ok x) :
    ∃ s, s.pos = tail ∧ f (b, s) = .ok x := by
  obtain ⟨s, hscan, hpos, -, -⟩ := h.scan hfull
  obtain ⟨p, hp, hf⟩ := bind_eq_ok.1 hrun
  rw [show Store.scan d = .ok (b, s) from hscan] at hp
  rw [← Except.ok.inj hp] at hf
  exact ⟨s, hpos, hf⟩

theorem SimAt.hostPut {d' : Disk Sector} {name : PyStr} {data : List UInt8}
    (h : SimAt (boot vb outcome d) b tail M) (hfull : FullSize vb)
    (hrun : Store.hostPut d name data = .ok d') :
    ∃ tail', SimAt (boot vb outcome d') b tail' ((Op.hostPut name data).apply M) := by
  rw [Store.hostPut] at hrun
  obtain ⟨s, hpos, hrun⟩ := h.scanned hfull hrun
  obtain ⟨⟨d₁, tail₁⟩, happ, hret⟩ := bind_eq_ok.1 hrun
  obtain rfl : d₁ = d' := Except.ok.inj hret
  rw [hpos] at happ
  obtain ⟨bytes, hname, -, hsim⟩ := h.hostAppend happ
  refine ⟨tail₁, ?_⟩
  rw [Op.apply, hname, hostBytes_toPy]
  exact hsim

theorem SimAt.hostDelete {d' : Disk Sector} {name : PyStr}
    (h : SimAt (boot vb outcome d) b tail M) (hfull : FullSize vb)
    (hrun : Store.hostDelete d name = .ok d') :
    ∃ tail', SimAt (boot vb outcome d') b tail' ((Op.hostDelete name).apply M) := by
  rw [Store.hostDelete] at hrun
  obtain ⟨s, hpos, hrun⟩ := h.scanned hfull hrun
  dsimp only at hrun
  split at hrun
  · cases hrun
  · obtain ⟨⟨d₁, tail₁⟩, happ, hret⟩ := bind_eq_ok.1 hrun
    obtain rfl : d₁ = d' := Except.ok.inj hret
    rw [hpos] at happ
    obtain ⟨bytes, hname, -, hsim⟩ := h.hostTombstone happ
    refine ⟨tail₁, ?_⟩
    rw [Op.apply, hname, hostBytes_toPy]
    exact hsim

/-- A command that leaves an image or raises, given what it leaves. -/
theorem SimAt.hosted {healthy : Prop} {op : Op} {result : Except PyError (Disk Sector)}
    (h : SimAt m b tail M)
    (hok : ∀ d, result = .ok d → ∃ b' tail', SimAt (m.reboot d) b' tail' (op.apply M)) :
    ∃ b' tail' M', SimAt (m.hosted result).2 b' tail' M' ∧
      AbsStep healthy op (m.hosted result).1 M M' := by
  cases hres : result with
  | error e => exact ⟨b, tail, M, h.reboot, .refused op M⟩
  | ok d =>
    obtain ⟨b', tail', hsim⟩ := hok d hres
    exact ⟨b', tail', _, hsim, .done op M⟩

theorem Machine.hosted_vb (m : Machine) (result : Except PyError (Disk Sector)) :
    (m.hosted result).2.vb = m.vb := by
  cases result <;> rfl

theorem Machine.Healthy.hosted (h : m.Healthy) (result : Except PyError (Disk Sector)) :
    (m.hosted result).2.Healthy := by
  cases result with
  | ok d => exact h.reboot
  | error e => exact h.reboot

/-- **One operation.**  Both sides of the relation take a step. -/
theorem SimAt.step (h : SimAt m b tail M) (hfull : FullSize m.vb) (op : Op) :
    (∃ b' tail' M', SimAt (op.run m).2 b' tail' M' ∧ AbsStep m.Healthy op (op.run m).1 M M') ∧
      (op.run m).2.vb = m.vb ∧ (m.Healthy → (op.run m).2.Healthy) := by
  have hboot := h.reboot
  cases op with
  | guest call =>
    obtain ⟨tail', M', hsim, hvb, hout, hcase⟩ := h.call call
    refine ⟨⟨b, tail', M', hsim, ?_⟩, hvb, fun hh n => ?_⟩
    · by_cases hcode : (call.run m).1 = 0
      · obtain ⟨hne, -⟩ | ⟨rfl, -⟩ := hcase
        · exact absurd hcode hne
        · rw [Op.run, decide_eq_true hcode]
          exact .done (.guest call) M
      · rw [Op.run, decide_eq_false hcode]
        obtain ⟨-, rfl⟩ | ⟨rfl, hhealthy⟩ := hcase
        · exact .refused _ _
        · exact .faulted call M fun hh => hcode (hhealthy hh)
    · show (call.run m).2.outcome n = .done
      rw [hout]
      exact hh n
  | guestCompact =>
    obtain ⟨b', tail', hsim, hvb, hout⟩ := h.compacted
    refine ⟨⟨b', tail', M, hsim, ?_⟩, hvb, fun hh n => ?_⟩
    · rw [Op.run]
      cases decide ((zssCompact m).1 = 0) with
      | true => exact .done .guestCompact M
      | false => exact .refused .guestCompact M
    · show (zssCompact m).2.2.outcome n = .done
      rw [hout]
      exact hh n
  | hostPut name data =>
    refine ⟨h.hosted fun d hd => ?_, m.hosted_vb _, fun hh => hh.hosted _⟩
    obtain ⟨tail', hsim⟩ := hboot.hostPut hfull hd
    exact ⟨b, tail', hsim⟩
  | hostDelete name =>
    refine ⟨h.hosted fun d hd => ?_, m.hosted_vb _, fun hh => hh.hosted _⟩
    obtain ⟨tail', hsim⟩ := hboot.hostDelete hfull hd
    exact ⟨b, tail', hsim⟩
  | hostCompact =>
    refine ⟨h.hosted fun d hd => ?_, m.hosted_vb _, fun hh => hh.hosted _⟩
    obtain ⟨tail', hsim⟩ := hboot.hostCompacted hfull hd
    exact ⟨b, tail', hsim⟩
  | hostMerge bundle replaceNames =>
    obtain ⟨taken, rest, tail', hsplit, hsim, hend⟩ := hboot.hostMerged hfull bundle replaceNames
    refine ⟨⟨b, tail', _, hsim, ?_⟩, rfl, fun hh => hh.reboot⟩
    rw [Op.run]
    cases rest with
    | nil =>
      rw [List.append_nil] at hsplit
      rw [hend.2 rfl, ← hsplit]
      exact .done (.hostMerge bundle replaceNames) M
    | cons member rest =>
      have herr : (Store.hostMerge m.disk bundle replaceNames).1.isNone = false := by
        rw [Option.isNone_eq_false_iff, ← Option.ne_none_iff_isSome, ne_eq, hend]
        exact List.cons_ne_nil _ _
      rw [herr]
      exact .stopped bundle replaceNames taken member rest M hsplit

end Step

/-! ## Runs -/

/-- A run keeps the relation. -/
theorem SimAt.run {m : Machine} {b : Bank} {tail : ℕ} (h : SimAt m b tail M)
    (hfull : FullSize m.vb) (ops : List Op) :
    ∃ b' tail' M', SimAt (runOps ops m).2 b' tail' M' ∧ (runOps ops m).2.vb = m.vb ∧
      (m.Healthy → (runOps ops m).2.Healthy) ∧ AbsRun m.Healthy ops (runOps ops m).1 M M' := by
  induction ops generalizing m b tail M with
  | nil => exact ⟨b, tail, M, h, rfl, id, .nil M⟩
  | cons op ops ih =>
    obtain ⟨⟨b₁, tail₁, M₁, hsim₁, hstep⟩, hvb₁, hhealthy₁⟩ := h.step hfull op
    have hfull₁ : FullSize (op.run m).2.vb := by rwa [hvb₁]
    obtain ⟨b₂, tail₂, M₂, hsim₂, hvb₂, hhealthy₂, hrest⟩ := ih hsim₁ hfull₁
    exact ⟨b₂, tail₂, M₂, hsim₂, hvb₂.trans hvb₁, hhealthy₂ ∘ hhealthy₁,
      .cons hstep (hrest.mono hhealthy₁)⟩

end ZealBringup.Store
