import ColumnStore.Decimal
import ColumnStore.Entries

/-!
# JSON texts

A JSON document as a value, and its reading from text by RFC 8259. Beyond the grammar:

* at most 127 arrays and objects may be open at once;
* an escape may not leave a surrogate unpaired, and a control character must be escaped;
* of members with one name the last stays, and members are kept in the order of their names;
* an integer keeps its value if it fits 64 bits, with or without sign; any other number is read as
  a double by the rule of `Decimal`, and one past the largest double is refused. `-0` is the
  negative zero.

Reading goes over a list of characters and gives back what it leaves. Recursion is on fuel: every
character pays for at most two steps, so fuel for twice as many steps as there are characters, and
for two more, is never short.
-/

namespace ColumnStore

namespace Json

/-- A number as it was written. -/
inductive Number where
  /-- An integer from 0 to `2 ^ 64 - 1`. -/
  | natural (n : Nat)
  /-- The integer `-n`, from `-2 ^ 63` to -1. -/
  | negative (n : Nat)
  | float (x : Binary64)
deriving DecidableEq, Inhabited

/-- The double nearest to the number. -/
def Number.toBinary64 : Number → Binary64
  | .natural n => .ofNat n
  | .negative n => (Binary64.ofNat n).neg
  | .float x => x

end Json

/-- A JSON document. The members of an object are in the order of their names, one per name. -/
inductive Json where
  | null
  | bool (b : Bool)
  | number (n : Json.Number)
  | string (s : String)
  | array (items : List Json)
  | object (members : List (String × Json))
deriving Inhabited

namespace Json

/-- The name of the document's form, as errors give it. -/
def typeName : Json → String
  | null => "null"
  | bool _ => "bool"
  | number _ => "number"
  | string _ => "string"
  | array _ => "array"
  | object _ => "object"

/-- What is left of a text. -/
abbrev Text := List Char

/-! ## Characters -/

/-- Whether a character may stand between tokens. -/
def isBlank (c : Char) : Bool := c = ' ' || c = '\n' || c = '\t' || c = '\r'

/-- The text from its first character that is not blank. -/
def skipBlanks (text : Text) : Text := text.dropWhile isBlank

/-- The text after a word that it starts with. -/
def dropWord? : (word : List Char) → Text → Option Text
  | [], text => some text
  | _ :: _, [] => none
  | w :: word, c :: text => if w = c then dropWord? word text else none

/-- The value of a hexadecimal digit. -/
def hexDigit? (c : Char) : Option Nat :=
  if '0' ≤ c ∧ c ≤ '9' then some (c.toNat - '0'.toNat)
  else if 'a' ≤ c ∧ c ≤ 'f' then some (c.toNat - 'a'.toNat + 10)
  else if 'A' ≤ c ∧ c ≤ 'F' then some (c.toNat - 'A'.toNat + 10)
  else none

/-- The number written in four hexadecimal digits. -/
def hexFour : Text → Option (Nat × Text)
  | a :: b :: c :: d :: rest => do
    let a ← hexDigit? a
    let b ← hexDigit? b
    let c ← hexDigit? c
    let d ← hexDigit? d
    pure (((a * 16 + b) * 16 + c) * 16 + d, rest)
  | _ => none

/-! ## Strings -/

/-- The character that a one-letter escape stands for. -/
def escaped? : Char → Option Char
  | '"' => some '"'
  | '\\' => some '\\'
  | '/' => some '/'
  | 'b' => some '\x08'
  | 'f' => some '\x0c'
  | 'n' => some '\n'
  | 'r' => some '\r'
  | 't' => some '\t'
  | _ => none

/-- The character behind `\u`. A code from the upper half of the surrogates has to be followed by
    one from the lower half, and the two make one character. -/
def unicodeEscape (text : Text) : Option (Char × Text) := do
  let (high, rest) ← hexFour text
  if 0xd800 ≤ high ∧ high ≤ 0xdbff then
    match rest with
    | '\\' :: 'u' :: rest =>
      let (low, rest) ← hexFour rest
      if 0xdc00 ≤ low ∧ low ≤ 0xdfff then
        pure (Char.ofNat (0x10000 + (high - 0xd800) * 0x400 + (low - 0xdc00)), rest)
      else none
    | _ => none
  else if 0xdc00 ≤ high ∧ high ≤ 0xdfff then none
  else pure (Char.ofNat high, rest)

/-- Reads a string behind its opening quote; `read` holds the characters so far, the last first. -/
def stringBody : (fuel : Nat) → (read : List Char) → Text → Option (String × Text)
  | 0, _, _ => none
  | _ + 1, _, [] => none
  | fuel + 1, read, c :: rest =>
    if c = '"' then some (String.ofList read.reverse, rest)
    else if c = '\\' then
      match rest with
      | 'u' :: rest =>
        match unicodeEscape rest with
        | some (c, rest) => stringBody fuel (c :: read) rest
        | none => none
      | e :: rest =>
        match escaped? e with
        | some c => stringBody fuel (c :: read) rest
        | none => none
      | [] => none
    else if c.toNat < 0x20 then none
    else stringBody fuel (c :: read) rest

/-- Reads a string behind its opening quote. As much fuel as the text has characters is enough. -/
def readString (fuel : Nat) (text : Text) : Option (String × Text) := stringBody fuel [] text

/-! ## Numbers -/

/-- The values of a run of decimal digits. -/
def digitValues (digits : List Char) : List Nat := digits.map fun c => c.toNat - '0'.toNat

/-- The natural number that a run of decimal digits stands for. -/
def decimal (digits : List Char) : Nat := (digitValues digits).foldl (fun n d => n * 10 + d) 0

/-- The leading digits and the rest. -/
def readDigits (text : Text) : List Char × Text :=
  (text.takeWhile Char.isDigit, text.dropWhile Char.isDigit)

/-- The digits of a whole part: at least one, and no zero before another. -/
def readWhole (text : Text) : Option (List Char × Text) :=
  match readDigits text with
  | ([], _) => none
  | ('0' :: _ :: _, _) => none
  | found => some found

/-- The digits behind a point, if there is one; then there is at least one digit. -/
def readFraction : Text → Option (Option (List Char) × Text)
  | '.' :: rest =>
    match readDigits rest with
    | ([], _) => none
    | (digits, rest) => some (some digits, rest)
  | text => some (none, text)

/-- A sign in front of an exponent, true for minus. -/
def readSign : Text → Bool × Text
  | '-' :: rest => (true, rest)
  | '+' :: rest => (false, rest)
  | text => (false, text)

/-- The exponent, if there is one; then there is at least one digit. -/
def readExponent (text : Text) : Option (Option Int × Text) :=
  let body (rest : Text) : Option (Option Int × Text) :=
    let (minus, rest) := readSign rest
    match readDigits rest with
    | ([], _) => none
    | (digits, rest) =>
      let n : Int := decimal digits
      some (some (if minus then -n else n), rest)
  match text with
  | 'e' :: rest => body rest
  | 'E' :: rest => body rest
  | _ => some (none, text)

/-- The double of a sign, whole digits, digits behind the point and a power of ten. -/
def makeFloat (minus : Bool) (whole fraction : List Char) (exponent : Int) : Option Number :=
  (Decimal.ofDigits (digitValues whole) (digitValues fraction) exponent).toBinary64?.map fun x =>
    .float (if minus then x.neg else x)

/-- The number of a sign, whole digits, and perhaps a fraction and an exponent. -/
def makeNumber (minus : Bool) (whole : List Char) (fraction : Option (List Char))
    (exponent : Option Int) : Option Number :=
  match fraction, exponent with
  | none, none =>
    let n := decimal whole
    if minus then
      if 0 < n ∧ n ≤ 1 <<< 63 then some (.negative n) else makeFloat minus whole [] 0
    else if n < 1 <<< 64 then some (.natural n)
    else makeFloat minus whole [] 0
  | _, _ => makeFloat minus whole (fraction.getD []) (exponent.getD 0)

/-- Reads a number behind its sign. -/
def readUnsigned (minus : Bool) (text : Text) : Option (Number × Text) := do
  let (whole, rest) ← readWhole text
  let (fraction, rest) ← readFraction rest
  let (exponent, rest) ← readExponent rest
  let n ← makeNumber minus whole fraction exponent
  pure (n, rest)

/-- Reads a number. -/
def readNumber : Text → Option (Number × Text)
  | '-' :: rest => readUnsigned true rest
  | text => readUnsigned false text

/-! ## Documents -/

mutual

/-- Reads a document that starts at the first character that is not blank. `depth` more arrays and
    objects may be opened. -/
def readValue : (fuel depth : Nat) → Text → Option (Json × Text)
  | 0, _, _ => none
  | fuel + 1, depth, text =>
    match skipBlanks text with
    | 'n' :: rest => (dropWord? ['u', 'l', 'l'] rest).map (null, ·)
    | 't' :: rest => (dropWord? ['r', 'u', 'e'] rest).map (bool true, ·)
    | 'f' :: rest => (dropWord? ['a', 'l', 's', 'e'] rest).map (bool false, ·)
    | '"' :: rest => (readString fuel rest).map fun (s, rest) => (string s, rest)
    | '[' :: rest =>
      match depth with
      | 0 => none
      | depth + 1 =>
        match skipBlanks rest with
        | ']' :: rest => some (array [], rest)
        | rest => (readItems fuel depth [] rest).map fun (items, rest) => (array items, rest)
    | '\x7b' :: rest =>
      match depth with
      | 0 => none
      | depth + 1 =>
        match skipBlanks rest with
        | '\x7d' :: rest => some (object [], rest)
        | rest => (readMembers fuel depth [] rest).map fun (members, rest) => (object members, rest)
    | rest => (readNumber rest).map fun (n, rest) => (number n, rest)

/-- Reads the items of an array up to its closing bracket; `read` holds those so far, the last
    first. -/
def readItems : (fuel depth : Nat) → (read : List Json) → Text → Option (List Json × Text)
  | 0, _, _, _ => none
  | fuel + 1, depth, read, text =>
    match readValue fuel depth text with
    | none => none
    | some (item, rest) =>
      match skipBlanks rest with
      | ',' :: rest => readItems fuel depth (item :: read) rest
      | ']' :: rest => some ((item :: read).reverse, rest)
      | _ => none

/-- Reads the members of an object up to its closing brace; `read` holds those so far. -/
def readMembers : (fuel depth : Nat) → (read : List (String × Json)) → Text →
    Option (List (String × Json) × Text)
  | 0, _, _, _ => none
  | fuel + 1, depth, read, text =>
    match skipBlanks text with
    | '"' :: rest =>
      match readString fuel rest with
      | none => none
      | some (name, rest) =>
        match skipBlanks rest with
        | ':' :: rest =>
          match readValue fuel depth rest with
          | none => none
          | some (value, rest) =>
            let read := Entries.insert name value read
            match skipBlanks rest with
            | ',' :: rest => readMembers fuel depth read rest
            | '\x7d' :: rest => some (read, rest)
            | _ => none
        | _ => none
    | _ => none

end

/-- The most arrays and objects that may be open at once. -/
def maxDepth : Nat := 127

/-- The document that a text holds, if it holds one and nothing else but blanks and no more than
    `depth` arrays and objects are open at once. -/
def parseWithin (depth : Nat) (text : String) : Option Json :=
  let chars := text.toList
  match readValue (2 * chars.length + 2) depth chars with
  | some (json, rest) => if (skipBlanks rest).isEmpty then some json else none
  | none => none

/-- The document that a text holds, if it holds one and nothing else but blanks. -/
def parse? (text : String) : Option Json := parseWithin maxDepth text

/-! ## Passing over a document

A member that nobody asks for is passed over without being read: its grammar is checked, but neither
the depth nor the range of numbers nor the pairing of surrogates. -/

/-- Passes over a string behind its opening quote. -/
def skipString : (fuel : Nat) → Text → Option Text
  | 0, _ => none
  | _ + 1, [] => none
  | fuel + 1, c :: rest =>
    if c = '"' then some rest
    else if c = '\\' then
      match rest with
      | 'u' :: rest =>
        match hexFour rest with
        | some (_, rest) => skipString fuel rest
        | none => none
      | e :: rest => if (escaped? e).isSome then skipString fuel rest else none
      | [] => none
    else if c.toNat < 0x20 then none
    else skipString fuel rest

/-- Passes over a number. -/
def skipNumber (text : Text) : Option Text := do
  let rest :=
    match text with
    | '-' :: rest => rest
    | text => text
  let (_, rest) ← readWhole rest
  let (_, rest) ← readFraction rest
  let (_, rest) ← readExponent rest
  pure rest

mutual

/-- Passes over a document. -/
def skipValue : (fuel : Nat) → Text → Option Text
  | 0, _ => none
  | fuel + 1, text =>
    match skipBlanks text with
    | 'n' :: rest => dropWord? ['u', 'l', 'l'] rest
    | 't' :: rest => dropWord? ['r', 'u', 'e'] rest
    | 'f' :: rest => dropWord? ['a', 'l', 's', 'e'] rest
    | '"' :: rest => skipString fuel rest
    | '[' :: rest =>
      match skipBlanks rest with
      | ']' :: rest => some rest
      | rest => skipItems fuel rest
    | '\x7b' :: rest =>
      match skipBlanks rest with
      | '\x7d' :: rest => some rest
      | rest => skipMembers fuel rest
    | rest => skipNumber rest

/-- Passes over the items of an array and its closing bracket. -/
def skipItems : (fuel : Nat) → Text → Option Text
  | 0, _ => none
  | fuel + 1, text =>
    match skipValue fuel text with
    | none => none
    | some rest =>
      match skipBlanks rest with
      | ',' :: rest => skipItems fuel rest
      | ']' :: rest => some rest
      | _ => none

/-- Passes over the members of an object and its closing brace. -/
def skipMembers : (fuel : Nat) → Text → Option Text
  | 0, _ => none
  | fuel + 1, text =>
    match skipBlanks text with
    | '"' :: rest =>
      match skipString fuel rest with
      | none => none
      | some rest =>
        match skipBlanks rest with
        | ':' :: rest =>
          match skipValue fuel rest with
          | none => none
          | some rest =>
            match skipBlanks rest with
            | ',' :: rest => skipMembers fuel rest
            | '\x7d' :: rest => some rest
            | _ => none
        | _ => none
    | _ => none

end

/-- Passes over a document, whatever follows it. -/
def skip (text : Text) : Option Text := skipValue (2 * text.length + 2) text

end Json

end ColumnStore
