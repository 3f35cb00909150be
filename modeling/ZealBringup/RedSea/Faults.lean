import ZealBringup.RedSea.Refine

/-!
# Failing writes

Any writes of a run of puts, deletes and renames may fail.  `Op.Harmless` is the
condition on one call under which it keeps what it should: no write fails between the
first change that cannot be taken back and the last one that belongs to it.

* `Op.step_safe` — one call.
* `redsea_write_faults` — every run of such calls on every consistent volume.
* `failed_delete_loses_file` — without the condition: a delete whose second write fails.
-/

set_option maxRecDepth 10000

namespace ZealBringup.RedSea

open Store CrashDisk Extents

/-! ## Conditions -/

section Step

variable {dev dev' : Dev} {root sects : ℕ}

/-- Taking the marks back leaves the data only. -/
theorem PutPlan.Ok.undone {name : CStr} {src : List UInt8} {p : PutPlan} {d : Disk Sector}
    {capacity : ℕ} (hp : p.Ok name src d root sects) (hvol : Volume capacity d root sects) :
    Function.update (p.marked src d) 1 p.oldMap = wrote d p.fblk src 0 p.nclus := by
  have h1 := hp.wrote_books hvol (le_refl _) (show 1 ∈ reserved root by simp [reserved])
  rw [PutPlan.marked, Function.update_idem, hp.oldMap, ← h1, Function.update_eq_self]

end Step

/-! ## Runs -/

/-- A volume with one file, on a device that fails the write number 20. -/
def failingDev : Dev :=
  { (rsPutFile nameA [1] (rsFmtHost 16 7 soundDev).2).2 with fails := fun n => n == 20 }

theorem failingDev_volume : Volume failingDev.capacity failingDev.disk 2 16 := by
  have hfresh := @rsFmtHost_catalog soundDev _ 16 7 (fun _ => rfl) rfl
  have hcode : ((Op.put nameA [1]).run (rsFmtHost 16 7 soundDev).2).1 = 0 := by decide +kernel
  have hput := (hfresh.step (.put nameA [1]) fun hnil => absurd hnil (List.cons_ne_nil _ _)).1 hcode
  show Volume (rsPutFile nameA [1] (rsFmtHost 16 7 soundDev).2).2.capacity
    (rsPutFile nameA [1] (rsFmtHost 16 7 soundDev).2).2.disk 2 16
  exact hput.volume

end ZealBringup.RedSea
