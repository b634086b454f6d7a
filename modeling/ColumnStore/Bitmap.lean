import ColumnStore.Word

/-!
# Bitmaps

A bitmap is a set of row positions packed into words: position `i` is bit `i % 64` of word
`i / 64`. It grows when a position past its end is set, and positions past its end are not in it.
Two bitmaps of different lengths combine as the sets they stand for; the length of the result is
part of the stored form, so each operation says which length it keeps.

`Bitmap.toList` lists the positions in ascending order. `Bitmap.Iter` yields the same positions one
at a time.
-/

namespace ColumnStore

/-- A growable set of positions, packed into words. -/
structure Bitmap where
  words : Array Word
deriving DecidableEq, Inhabited

namespace Bitmap

/-- Words needed to address `bits` positions (`word_count`). -/
def wordCount (bits : Nat) : Nat := (bits + 63) / 64

/-- The bitmap of no words (`new`). -/
def empty : Bitmap := ⟨#[]⟩

/-- No position set, with room for `bits` positions (`with_capacity`). -/
def withCapacity (bits : Nat) : Bitmap := ⟨Array.replicate (wordCount bits) 0⟩

/-- Exactly the positions below `len` (`filled`). The last word is partial unless `64` divides
    `len`. -/
def filled (len : Nat) : Bitmap :=
  let whole : Array Word := Array.replicate (len / 64) Word.full
  ⟨if len % 64 = 0 then whole else whole.push (Word.below (len % 64))⟩

/-- Number of addressable positions (`capacity`). -/
def capacity (b : Bitmap) : Nat := b.words.size * 64

/-- Room for at least `bits` positions (`grow`). Never shrinks. -/
def grow (b : Bitmap) (bits : Nat) : Bitmap :=
  if wordCount bits ≤ b.words.size then b
  else ⟨b.words ++ Array.replicate (wordCount bits - b.words.size) 0⟩

/-- Whether position `i` is in the set (`contains`). -/
def contains (b : Bitmap) (i : Nat) : Bool :=
  match b.words[i / 64]? with
  | some w => w.has (i % 64)
  | none => false

/-- Adds position `i`, growing to reach it (`set`). -/
def set (b : Bitmap) (i : Nat) : Bitmap :=
  ⟨(b.grow (i + 1)).words.modify (i / 64) (· ||| Word.bit (i % 64))⟩

/-- Removes position `i`; past the end there is nothing to remove (`clear`). -/
def clear (b : Bitmap) (i : Nat) : Bitmap :=
  ⟨b.words.modify (i / 64) (· &&& ~~~ Word.bit (i % 64))⟩

/-- Adds or removes position `i` (`assign`). -/
def assign (b : Bitmap) (i : Nat) (value : Bool) : Bitmap :=
  if value then b.set i else b.clear i

/-- Removes every position and keeps the length (`reset`). -/
def reset (b : Bitmap) : Bitmap := ⟨b.words.map fun _ => 0⟩

/-- The positions in both, at the length of `a` (`and`). -/
def and (a b : Bitmap) : Bitmap :=
  ⟨a.words.mapIdx fun j w => w &&& b.words[j]?.getD 0⟩

/-- The positions in `a` and not in `b`, at the length of `a` (`and_not`). -/
def andNot (a b : Bitmap) : Bitmap :=
  ⟨a.words.mapIdx fun j w => w &&& ~~~ b.words[j]?.getD 0⟩

/-- The positions in either, at the greater of the two lengths (`or`). -/
def or (a b : Bitmap) : Bitmap :=
  ⟨(a.grow b.capacity).words.mapIdx fun j w => w ||| b.words[j]?.getD 0⟩

/-- Number of positions in the set (`count`). -/
def count (b : Bitmap) : Nat := (b.words.toList.map Word.count).foldr (· + ·) 0

/-- Whether no position is in the set (`is_empty`). -/
def isEmpty (b : Bitmap) : Bool := b.words.all (· == 0)

/-- Positions of `words`, the first of which starts at position `base`. -/
def positionsFrom (base : Nat) : List Word → List Nat
  | [] => []
  | w :: rest =>
    if w = 0 then positionsFrom (base + 64) rest
    else w.positions.map (base + ·) ++ positionsFrom (base + 64) rest

/-- The positions in the set, ascending. -/
def toList (b : Bitmap) : List Nat := positionsFrom 0 b.words.toList

/-! ## Stepping through the positions -/

/-- A place in the enumeration of a bitmap: what is left of the current word, the position its
    first bit stands for, and the words after it. -/
structure Iter where
  base : Nat
  current : Word
  rest : List Word

/-- The enumeration from the first word (`iter`). -/
def iter (b : Bitmap) : Iter :=
  match b.words.toList with
  | [] => ⟨0, 0, []⟩
  | w :: rest => ⟨0, w, rest⟩

namespace Iter

/-- The next position at or after `base`, passing over words with nothing left, and the place after
    it. Where no position is left, the place is past the last word. -/
def nextFrom (base : Nat) (current : Word) : List Word → Option Nat × Iter
  | [] =>
    if current = 0 then (none, ⟨base + 64, 0, []⟩)
    else (some (base + current.lowest), ⟨base, current.dropLowest, []⟩)
  | w :: rest =>
    if current = 0 then nextFrom (base + 64) w rest
    else (some (base + current.lowest), ⟨base, current.dropLowest, w :: rest⟩)

/-- The next position, none once every position was yielded, and the place after it (`next`). -/
def next (it : Iter) : Option Nat × Iter := nextFrom it.base it.current it.rest

/-- The next positions, at most `fuel` of them. -/
def takeUpTo : (fuel : Nat) → Iter → List Nat
  | 0, _ => []
  | fuel + 1, it =>
    match it.next with
    | (none, _) => []
    | (some i, it) => i :: takeUpTo fuel it

/-- Every position still to come. A word yields at most 64. -/
def toList (it : Iter) : List Nat := takeUpTo (64 * (it.rest.length + 1)) it

end Iter

end Bitmap

end ColumnStore
