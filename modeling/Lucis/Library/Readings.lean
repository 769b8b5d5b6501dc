import Mathlib.Data.List.Basic

/-!
Computations that read a store and know what they have read: where two stores agree on that,
they have one result. They are put together from parts, and read what their parts read.
-/

structure Reading (Key Value Result : Type) where
  run : (Key → Value) → Result
  reads : (Key → Value) → List Key
  agree : ∀ store store', (∀ key ∈ reads store, store' key = store key) → run store' = run store

namespace Reading
variable {Key Value A B : Type}

def pure (a : A) : Reading Key Value A := ⟨fun _ => a, fun _ => [], fun _ _ _ => rfl⟩

/-- The second part may depend on the result of the first, and so do the keys that it reads. -/
def bind (first : Reading Key Value A) (next : A → Reading Key Value B) : Reading Key Value B where
  run store := (next (first.run store)).run store
  reads store := first.reads store ++ (next (first.run store)).reads store
  agree store store' same := by
    have ⟨early, late⟩ := List.forall_mem_append.mp same
    rw [first.agree store store' early]
    exact (next (first.run store)).agree store store' late

def map (f : A → B) (reading : Reading Key Value A) : Reading Key Value B where
  run store := f (reading.run store)
  reads := reading.reads
  agree store store' same := congrArg f (reading.agree store store' same)

def all (readings : List (Reading Key Value A)) : Reading Key Value (List A) where
  run store := readings.map fun reading => reading.run store
  reads store := readings.flatMap fun reading => reading.reads store
  agree store store' same := by
    apply List.map_congr_left
    intro reading member
    apply reading.agree
    intro key read
    exact same key (List.mem_flatMap.mpr ⟨reading, member, read⟩)

def get (key : Key) : Reading Key Value Value where
  run store := store key
  reads _ := [key]
  agree _ _ same := same key (List.mem_singleton.mpr rfl)

end Reading
