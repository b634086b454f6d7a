import ColumnStore.Binary64

/-!
# Tuning

How many threads scan: as many as there are processors, but at least one and at most eight, and one
only where memory is small or nearly used up.
-/

namespace ColumnStore

/-- What a machine has (`SystemResources`). -/
structure Resources where
  /-- Bytes of memory in all. -/
  total : Nat
  /-- Bytes of memory that can still be used. -/
  available : Nat
  processors : Nat

namespace Resources

/-- The share of memory in use, from 0 to 1; 1 if there is no memory (`memory_pressure`). -/
def pressure (r : Resources) : Binary64 :=
  if r.total = 0 then .one
  else
    let free := (Binary64.ofNat r.available).toFloat / (Binary64.ofNat r.total).toFloat
    let used := Binary64.ofFloat (Binary64.one.toFloat - free)
    if used.lt .zero then .zero
    else if Binary64.one.lt used then .one
    else used

end Resources

/-- The parameters of scanning that are chosen to fit a machine (`TuningProfile`). -/
structure Tuning where
  scanThreads : Nat
  pressure : Binary64

namespace Tuning

/-- The most threads that scan. -/
def maxThreads : Nat := 8

/-- Memory below which one thread scans: four gigabytes. -/
def smallMemory : Nat := 4 * (1024 * 1024 * 1024)

/-- The pressure above which one thread scans: the double nearest to 0.9. -/
def highPressure : Binary64 := .ofRatio 9 10

/-- Parameters that fit any machine (`default`). -/
def conservative : Tuning := ⟨1, .zero⟩

/-- The parameters that fit a machine (`from_resources`). -/
def ofResources (r : Resources) : Tuning :=
  let pressure := r.pressure
  let threads :=
    if r.total < smallMemory || highPressure.lt pressure then 1
    else min (max r.processors 1) maxThreads
  ⟨threads, pressure⟩

end Tuning

end ColumnStore
