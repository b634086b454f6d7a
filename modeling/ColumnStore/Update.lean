/-!
# Changing one element of an array

`updateAt` runs a function on one element of an array, puts the new element back and hands on what
else the function gave. While the function runs the element is out of the array, so an element that
is itself made of arrays is changed in place and not copied.
-/

namespace ColumnStore

variable {α β : Type}

/-- The element in place `i`, and the array with `filler` in its place. Inlined, the array would be
    written only after the element was used. -/
@[noinline]
def takeOut (filler : α) (xs : Array α) (i : Nat) (h : i < xs.size) : α × Array α :=
  xs.swapAt i filler h

/-- Runs `f` on the element in place `i`. `filler` stands in for it meanwhile. -/
def updateAt (filler : α) (xs : Array α) (i : Nat) (f : α → β × α) : Option β × Array α :=
  if h : i < xs.size then
    let (a, xs) := takeOut filler xs i h
    let (b, a) := f a
    (some b, xs.setIfInBounds i a)
  else (none, xs)

/-- Nothing happens past the end. -/
theorem updateAt_of_size_le (filler : α) (xs : Array α) (i : Nat) (f : α → β × α)
    (h : xs.size ≤ i) : updateAt filler xs i f = (none, xs) := by
  simp [updateAt, Nat.not_lt.mpr h]

/-- The filler does not show: the element is replaced by what `f` makes of it. -/
theorem updateAt_of_lt (filler : α) (xs : Array α) (i : Nat) (f : α → β × α) (h : i < xs.size) :
    updateAt filler xs i f = (some (f xs[i]).1, xs.set i (f xs[i]).2) := by
  simp [updateAt, takeOut, h, Array.setIfInBounds]

end ColumnStore
