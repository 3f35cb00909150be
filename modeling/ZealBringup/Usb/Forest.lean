import Mathlib.Data.Nat.Bitwise
import ZealBringup.Usb.Scan

/-!
# The forest of the devices

What the device table says of the tree of hubs, at every moment of a run.

* `PathTo` — the ports of the hubs on the way to a device.
* `packRoute` — a route string, four bits a tier.
* `NearestHighSpeed` — the last high-speed hub on the way, with the port at which the way leaves it.
* `Forest` — the present devices are a forest, with their route strings and translators.
* `usb_topology_forest` — so they are at every moment, and no lost record is handed out again.
-/

namespace ZealBringup.Usb

variable {t : ℕ → UsbDev} {i j p q : ℕ} {ports ports' : List ℕ} {r r' : Option (ℕ × ℕ)}

/-! ## Ways -/

/-- The ports on the way to a present device, from a root port over present hubs. -/
inductive PathTo (t : ℕ → UsbDev) : ℕ → List ℕ → Prop
  | root {i : ℕ} : (t i).present = true → (t i).parent = none → PathTo t i []
  | child {i p : ℕ} {ports : List ℕ} : (t i).present = true → (t i).parent = some p →
      IsHub (t p) → PathTo t p ports → PathTo t i (ports ++ [(t i).parentPort])

/-- The route string of some ports: four bits a tier, the first one lowest. -/
def packRoute : List ℕ → ℕ
  | [] => 0
  | port :: ports => port + 16 * packRoute ports

/-- The slot of the nearest high-speed hub above a device and the port of the way below it, if there
is such a hub. -/
inductive NearestHighSpeed (t : ℕ → UsbDev) : ℕ → Option (ℕ × ℕ) → Prop
  | root {i : ℕ} : (t i).parent = none → NearestHighSpeed t i none
  | here {i p : ℕ} : (t i).parent = some p → (t p).speed = 3 →
      NearestHighSpeed t i (some ((t p).slot, (t i).parentPort))
  | above {i p : ℕ} {r : Option (ℕ × ℕ)} : (t i).parent = some p → (t p).speed ≠ 3 →
      NearestHighSpeed t p r → NearestHighSpeed t i r

/-- The present devices are a forest, with their route strings and translators. -/
structure Forest (t : ℕ → UsbDev) : Prop where
  path : ∀ i, (t i).present = true → ∃ ports, PathTo t i ports
  unique : ∀ i j, (t i).present = true → (t j).present = true → (t i).hc = (t j).hc →
    (t i).port = (t j).port → (t i).route = (t j).route → i = j
  route : ∀ i ports, PathTo t i ports → (t i).route = packRoute ports ∧
    (∀ port ∈ ports, 1 ≤ port ∧ port ≤ 15) ∧ ports.length = (t i).depth ∧ ports.length ≤ 5 ∧
    (t i).route < 2 ^ 20
  tt : ∀ i, (t i).present = true → if (t i).speed ≤ 2
    then ∃ r, NearestHighSpeed t i r ∧ ((t i).ttSlot, (t i).ttPort) = r.getD (0, 0)
    else (t i).ttSlot = 0 ∧ (t i).ttPort = 0

/-! ## Route strings -/

theorem packRoute_lt (hports : ∀ port ∈ ports, 1 ≤ port ∧ port ≤ 15) :
    packRoute ports < 16 ^ ports.length := by
  induction ports with
  | nil => decide
  | cons port ports ih =>
    have hport := hports port (List.mem_cons_self ..)
    have hrest := ih fun port' hmem => hports port' (List.mem_cons_of_mem _ hmem)
    rw [packRoute, List.length_cons, Nat.pow_succ]
    omega

theorem packRoute_snoc (ports : List ℕ) (port : ℕ) :
    packRoute (ports ++ [port]) = packRoute ports + port * 16 ^ ports.length := by
  induction ports with
  | nil => simp [packRoute]
  | cons port' ports ih =>
    rw [List.cons_append, packRoute, ih, packRoute, List.length_cons, Nat.pow_succ', Nat.mul_add,
      Nat.add_assoc, Nat.mul_left_comm 16]

/-- A route string says which ports it has. -/
theorem packRoute_inj (hports : ∀ port ∈ ports, 1 ≤ port ∧ port ≤ 15)
    (hports' : ∀ port ∈ ports', 1 ≤ port ∧ port ≤ 15) (h : packRoute ports = packRoute ports') :
    ports = ports' := by
  induction ports generalizing ports' with
  | nil =>
    cases ports' with
    | nil => rfl
    | cons port' ports' =>
      have hport' := hports' port' (List.mem_cons_self ..)
      rw [packRoute, packRoute] at h
      omega
  | cons port ports ih =>
    have hport := hports port (List.mem_cons_self ..)
    cases ports' with
    | nil =>
      rw [packRoute, packRoute] at h
      omega
    | cons port' ports' =>
      have hport' := hports' port' (List.mem_cons_self ..)
      rw [packRoute, packRoute] at h
      have hrest : packRoute ports = packRoute ports' := by omega
      rw [ih (fun a ha => hports a (List.mem_cons_of_mem _ ha))
        (fun a ha => hports' a (List.mem_cons_of_mem _ ha)) hrest]
      exact congrArg (· :: ports') (by omega)

theorem route_or {route port depth : ℕ} (hroute : route < 16 ^ depth) (hport : port ≤ 15)
    (hdepth : depth ≤ 4) :
    route ||| port <<< (depth * 4) % 2 ^ 32 = route + port * 16 ^ depth := by
  have hpow : 2 ^ (depth * 4) = 16 ^ depth := by
    rw [Nat.mul_comm, Nat.pow_mul]
  have hle : 16 ^ depth ≤ 16 ^ 4 := Nat.pow_le_pow_right (by decide) hdepth
  have hmul : port * 16 ^ depth ≤ 15 * 16 ^ 4 := Nat.mul_le_mul hport hle
  have hsmall : port <<< (depth * 4) < 2 ^ 32 := by
    rw [Nat.shiftLeft_eq, hpow]
    exact Nat.lt_of_le_of_lt hmul (by decide)
  have hor := Nat.two_pow_add_eq_or_of_lt (hpow ▸ hroute : route < 2 ^ (depth * 4)) port
  rw [Nat.mod_eq_of_lt hsmall, Nat.shiftLeft_eq, Nat.or_comm, Nat.mul_comm, ← hor, hpow]
  rw [Nat.add_comm, Nat.mul_comm]

/-! ## The forest of a sound table -/

theorem TableOk.path (h : TableOk t) (n : ℕ) :
    ∀ i, (t i).present = true → (t i).depth = n → ∃ ports, PathTo t i ports := by
  induction n with
  | zero =>
    intro i hi hdepth
    cases hp : (t i).parent with
    | none => exact ⟨[], .root hi hp⟩
    | some p =>
      have hparent := (h.parent hi hp).depth
      omega
  | succ n ih =>
    intro i hi hdepth
    cases hp : (t i).parent with
    | none => exact ⟨[], .root hi hp⟩
    | some p =>
      have hparent := h.parent hi hp
      have hdepth' := hparent.depth
      obtain ⟨ports, hpath⟩ := ih p hparent.hub.1 (by omega)
      exact ⟨_, .child hi hp hparent.hub hpath⟩

/-- What the way to a device says of its record. -/
theorem TableOk.route (h : TableOk t) (hpath : PathTo t i ports) :
    (t i).present = true ∧ (t i).route = packRoute ports ∧
      (∀ port ∈ ports, 1 ≤ port ∧ port ≤ 15) ∧ ports.length = (t i).depth := by
  induction hpath with
  | root hi hp =>
    have hroot := (h.attached _ hi).of_none hp
    exact ⟨hi, hroot.route, fun _ hport => absurd hport List.not_mem_nil, hroot.depth.symm⟩
  | @child i p ports hi hp hhub hpath ih =>
    obtain ⟨-, hroute, hports, hlength⟩ := ih
    have hparent := h.parent hi hp
    obtain ⟨hpresent, hconfigured, hnonzero⟩ := hhub
    obtain ⟨hdepth, hlimit, -⟩ := h.hub p hpresent hconfigured hnonzero
    obtain ⟨hlow, hhigh⟩ := hparent.parentPort
    have hlt : (t p).route < 16 ^ (t p).depth := by
      rw [hroute, ← hlength]
      exact packRoute_lt hports
    refine ⟨hi, ?_, fun port hport => ?_, ?_⟩
    · rw [hparent.route, route_or hlt (by omega) hdepth, hroute, packRoute_snoc, hlength]
    · rcases List.mem_append.1 hport with hport | hport
      · exact hports port hport
      · rw [List.mem_singleton.1 hport]
        omega
    · rw [List.length_append, List.length_singleton, hlength, hparent.depth]

/-- Two ways with the same ports from the same root port end at one device. -/
theorem TableOk.path_unique (h : TableOk t) (hi : PathTo t i ports) (hj : PathTo t j ports)
    (hhc : (t i).hc = (t j).hc) (hport : (t i).port = (t j).port) : i = j := by
  induction hi generalizing j with
  | @root i hi hp =>
    obtain ⟨hj', -, -, hlength⟩ := h.route hj
    have hnone : (t j).parent = none := by
      cases hq : (t j).parent with
      | none => rfl
      | some q =>
        have hdepth := (h.parent hj' hq).depth
        rw [← hlength] at hdepth
        cases hdepth
    refine h.unique _ _ hi hj' ⟨hhc, hp.trans hnone.symm, ?_⟩
    rw [hp]
    exact hport
  | @child i p ports hi hp hhub hpath ih =>
    generalize hlist : ports ++ [(t i).parentPort] = list at hj
    cases hj with
    | root hj hq => exact absurd hlist (List.append_ne_nil_of_right_ne_nil _ (List.cons_ne_nil _ _))
    | @child j q ports' hj hq hhub' hpath' =>
      obtain ⟨hports, hlast⟩ := List.append_inj' hlist rfl
      have hparent := h.parent hi hp
      have hparent' := h.parent hj hq
      have hpq : p = q := ih (hports ▸ hpath') (by rw [← hparent.hc, hhc, hparent'.hc])
        (by rw [← hparent.port, hport, hparent'.port])
      refine h.unique _ _ hi hj ⟨hhc, by rw [hp, hq, hpq], ?_⟩
      rw [hp]
      exact List.head_eq_of_cons_eq hlast

/-- The translator of a device is the nearest high-speed hub. -/
theorem TableOk.tt (h : TableOk t) (n : ℕ) : ∀ i, (t i).present = true → (t i).depth = n →
    if (t i).speed ≤ 2
    then ∃ r, NearestHighSpeed t i r ∧ ((t i).ttSlot, (t i).ttPort) = r.getD (0, 0)
    else (t i).ttSlot = 0 ∧ (t i).ttPort = 0 := by
  induction n using Nat.strongRecOn with
  | ind n ih =>
    intro i hi hdepth
    cases hp : (t i).parent with
    | none =>
      have htt := ((h.attached i hi).of_none hp).tt
      split
      · exact ⟨none, .root hp, by rw [htt.1, htt.2]; rfl⟩
      · exact htt
    | some p =>
      have hparent := h.parent hi hp
      have htt := hparent.tt
      rw [usbTtChildRoute] at htt
      split
      · next hslow =>
        rw [if_neg (Nat.not_lt.2 hslow)] at htt
        by_cases hhigh : (t p).speed = 3
        · rw [if_pos hhigh] at htt
          obtain ⟨hslot, hport⟩ := UsbTtRoute.mk.inj htt
          exact ⟨_, .here hp hhigh, by rw [hslot, hport]; rfl⟩
        · rw [if_neg hhigh] at htt
          obtain ⟨hslot, hport⟩ := UsbTtRoute.mk.inj htt
          -- a SuperSpeed hub has no slow children
          have hslow' : (t p).speed ≤ 2 := by
            have hsuper := hparent.superspeed
            omega
          have hup := ih (t p).depth (by rw [← hdepth, hparent.depth]; omega) p hparent.hub.1 rfl
          rw [if_pos hslow'] at hup
          obtain ⟨r, hnearest, hr⟩ := hup
          exact ⟨r, .above hp hhigh hnearest, by rw [hslot, hport, hr]⟩
      · next hfast =>
        rw [if_pos (Nat.lt_of_not_le hfast)] at htt
        exact ⟨(UsbTtRoute.mk.inj htt).1, (UsbTtRoute.mk.inj htt).2⟩

/-- **A sound table is a forest.** -/
theorem TableOk.forest (h : TableOk t) : Forest t where
  path := fun i hi => h.path _ i hi rfl
  unique := fun i j hi hj hhc hport hroute => by
    obtain ⟨ports, hpath⟩ := h.path _ i hi rfl
    obtain ⟨ports', hpath'⟩ := h.path _ j hj rfl
    obtain ⟨-, hpack, hports, -⟩ := h.route hpath
    obtain ⟨-, hpack', hports', -⟩ := h.route hpath'
    obtain rfl := packRoute_inj hports hports' (by rw [← hpack, hroute, hpack'])
    exact h.path_unique hpath hpath' hhc hport
  route := fun i ports hpath => by
    obtain ⟨hi, hroute, hports, hlength⟩ := h.route hpath
    have hdepth := h.depth_le hi
    have hlt := packRoute_lt hports
    have hle : 16 ^ ports.length ≤ 16 ^ 5 := Nat.pow_le_pow_right (by decide) (by omega)
    refine ⟨hroute, hports, hlength, by omega, ?_⟩
    rw [hroute]
    exact Nat.lt_of_lt_of_le hlt hle
  tt := fun i hi => h.tt _ i hi rfl

/-- **The devices are a forest at every moment**, whatever the hardware answers; no removal goes
deeper than the code's recursion is followed, and a record whose Disable Slot did not complete is
never handed out again. -/
theorem usb_topology_forest (env : Answers) (ports : List ℕ) (n : ℕ) :
    let s := usbTopologyRun env ports n
    (∀ t, .table t ∈ s.log → Forest t) ∧ Forest s.devices ∧ .deep ∉ s.log ∧
      s.log.Pairwise NotAgain := by
  intro s
  have h : TopologyOk s := usbTopologyRun_ok env ports n
  exact ⟨fun t ht => (h.log.tables t ht).forest, h.table.forest, h.log.notDeep, h.log.notAgain⟩

end ZealBringup.Usb
