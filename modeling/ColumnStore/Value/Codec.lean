import ColumnStore.Bytes
import ColumnStore.Value

/-!
# Stored values

A value is stored as a tag, four bytes wide, and what the tag calls for: one byte for a truth value,
eight for a number, a count of eight bytes before a text's bytes, a list's items or a map's entries.

Reading takes a truth value of 0 or 1 only and a text only if it is UTF-8. A map may be stored in
any order and with a key repeated: it is put in key order, the last binding staying. Bytes after the
value are left alone.
-/

namespace ColumnStore

namespace Value

mutual

/-- The stored form. -/
def encode : Value → Bytes
  | null => Bytes.ofNat 4 0
  | bool b => Bytes.ofNat 4 1 ++ [if b then 1 else 0]
  | float64 x => Bytes.ofNat 4 2 ++ Bytes.ofNat 8 x.bits.toNat
  | string s => Bytes.ofNat 4 3 ++ Bytes.ofString 8 s
  | list items => Bytes.ofNat 4 4 ++ Bytes.ofNat 8 items.length ++ encodeItems items
  | map entries => Bytes.ofNat 4 5 ++ Bytes.ofNat 8 entries.length ++ encodeEntries entries

/-- The stored forms of a list's items, one after the other. -/
def encodeItems : List Value → Bytes
  | [] => []
  | v :: rest => encode v ++ encodeItems rest

/-- The stored forms of a map's entries: key, then value. -/
def encodeEntries : List (String × Value) → Bytes
  | [] => []
  | (k, v) :: rest => Bytes.ofString 8 k ++ encode v ++ encodeEntries rest

end

/-- A number of `width` bytes off the front. -/
def readNat (width : Nat) (bytes : Bytes) : Option (Nat × Bytes) :=
  (Bytes.splitAt? width bytes).map fun (front, rest) => (front.toNat, rest)

/-- A text behind its length of eight bytes. -/
def readString (bytes : Bytes) : Option (String × Bytes) := do
  let (length, rest) ← readNat 8 bytes
  let (front, rest) ← Bytes.splitAt? length rest
  let s ← front.toString?
  pure (s, rest)

mutual

/-- Reads a value. Every value and every item takes at least four bytes, so as much fuel as there
    are bytes is never short. -/
def read : (fuel : Nat) → Bytes → Option (Value × Bytes)
  | 0, _ => none
  | fuel + 1, bytes => do
    let (tag, rest) ← readNat 4 bytes
    match tag with
    | 0 => pure (null, rest)
    | 1 =>
      match rest with
      | b :: rest =>
        if b = 0 then pure (bool false, rest)
        else if b = 1 then pure (bool true, rest)
        else none
      | [] => none
    | 2 =>
      let (bits, rest) ← readNat 8 rest
      pure (float64 ⟨UInt64.ofNat bits⟩, rest)
    | 3 =>
      let (s, rest) ← readString rest
      pure (string s, rest)
    | 4 =>
      let (count, rest) ← readNat 8 rest
      let (items, rest) ← readItems fuel count rest
      pure (list items, rest)
    | 5 =>
      let (count, rest) ← readNat 8 rest
      let (entries, rest) ← readEntries fuel count rest
      pure (map (Entries.ofList entries), rest)
    | _ => none

/-- Reads `count` values. -/
def readItems : (fuel : Nat) → (count : Nat) → Bytes → Option (List Value × Bytes)
  | _, 0, bytes => some ([], bytes)
  | 0, _ + 1, _ => none
  | fuel + 1, count + 1, bytes => do
    let (v, rest) ← read fuel bytes
    let (items, rest) ← readItems fuel count rest
    pure (v :: items, rest)

/-- Reads `count` entries, in the order in which they are stored. -/
def readEntries : (fuel : Nat) → (count : Nat) → Bytes → Option (List (String × Value) × Bytes)
  | _, 0, bytes => some ([], bytes)
  | 0, _ + 1, _ => none
  | fuel + 1, count + 1, bytes => do
    let (k, rest) ← readString bytes
    let (v, rest) ← read fuel rest
    let (entries, rest) ← readEntries fuel count rest
    pure ((k, v) :: entries, rest)

end

/-- The value stored at the front of `bytes`, whatever follows it. -/
def decode? (bytes : Bytes) : Option Value := (read bytes.length bytes).map Prod.fst

end Value

end ColumnStore
