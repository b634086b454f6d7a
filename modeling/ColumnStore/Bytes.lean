import ColumnStore.Corruption

/-!
# Bytes

Stored forms are lists of bytes, integers little-endian. A `Reader` takes what it needs from the
front of a list and gives back the rest, so a stored form is described by a writer and a reader that
undo one another whatever bytes follow.
-/

namespace ColumnStore

/-- A run of bytes. -/
abbrev Bytes := List UInt8

namespace Bytes

/-- The `width` low bytes of `n`, lowest first. -/
def ofNat : (width : Nat) → Nat → Bytes
  | 0, _ => []
  | width + 1, n => UInt8.ofNat n :: ofNat width (n / 256)

/-- The number that the bytes stand for, lowest first. -/
def toNat : Bytes → Nat
  | [] => 0
  | b :: rest => b.toNat + 256 * toNat rest

/-- A text: its length in bytes, `width` bytes wide, then its UTF-8 bytes. -/
def ofString (width : Nat) (s : String) : Bytes :=
  ofNat width s.utf8ByteSize ++ s.toUTF8.toList

/-- The text with the given UTF-8 bytes, if they are UTF-8. -/
def toString? (bytes : Bytes) : Option String := String.fromUTF8? ⟨bytes.toArray⟩

/-- Whether there are at least `n` bytes, found without counting them all. -/
def hasAtLeast : (n : Nat) → Bytes → Bool
  | 0, _ => true
  | _ + 1, [] => false
  | n + 1, _ :: rest => hasAtLeast n rest

/-- The first `n` bytes and the rest; `none` if there are fewer. -/
def splitAt? (n : Nat) (bytes : Bytes) : Option (Bytes × Bytes) :=
  if hasAtLeast n bytes then some (bytes.take n, bytes.drop n) else none

end Bytes

/-- Reads a value off the front of a run of bytes and keeps the rest for what comes next. -/
abbrev Reader (α : Type) := StateT Bytes (Except Corruption) α

namespace Reader

variable {α : Type}

/-- Gives up. -/
def fail (cause : Corruption) : Reader α := fun _ => .error cause

/-- Goes on only if `ok`. -/
def require (ok : Bool) (cause : Corruption) : Reader Unit := fun bytes =>
  if ok then .ok ((), bytes) else .error cause

/-- Goes on only if at least `n` bytes are left. -/
def requireLeft (n : Nat) (cause : Corruption) : Reader Unit := fun bytes =>
  if Bytes.hasAtLeast n bytes then .ok ((), bytes) else .error cause

/-- The next `n` bytes (`take`). -/
def take (n : Nat) (part : String) : Reader Bytes := fun bytes =>
  match Bytes.splitAt? n bytes with
  | some split => .ok split
  | none => .error (.truncated part)

/-- A little-endian number of `width` bytes. -/
def nat (width : Nat) (part : String) : Reader Nat := do
  let bytes ← take width part
  pure bytes.toNat

/-- A text behind its length of four bytes (`string`). -/
def string (part : String) : Reader String := do
  let length ← nat 4 part
  let bytes ← take length part
  match bytes.toString? with
  | some s => pure s
  | none => fail (.invalidText part)

/-- The same thing `n` times over. -/
def replicate (item : Reader α) : (n : Nat) → Reader (List α)
  | 0 => pure []
  | n + 1 => do
    let a ← item
    let rest ← replicate item n
    pure (a :: rest)

/-- Nothing may be left. -/
def finish : Reader Unit := fun bytes =>
  match bytes with
  | [] => .ok ((), [])
  | rest => .error (.trailing rest.length)

end Reader

end ColumnStore
