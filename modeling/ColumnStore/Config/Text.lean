import ColumnStore.Error
import ColumnStore.Json

/-!
# Configurations as JSON

A configuration is written as a JSON object of three members, two spaces of indentation. Read, it is
an object or an array.

* In an object every member may be missing and takes its default then; a member of another name is
  passed over; a known name must not come twice.
* An array gives the three values in the order capacity, chunk size, threads; missing ones at its
  end take their defaults, and a fourth is refused.

Capacity and chunk size are integers that fit 64 bits; the threads may also be `null`.
-/

namespace ColumnStore

namespace Config

/-- A setting that a configuration text can give. -/
inductive Setting where
  | capacity
  | chunkSize
  | scanThreads
deriving DecidableEq

namespace Setting

/-- The settings in the order of an array. -/
def all : List Setting := [.capacity, .chunkSize, .scanThreads]

/-- The name of a setting's member. -/
def name : Setting → String
  | capacity => "capacity"
  | chunkSize => "chunk_size"
  | scanThreads => "scan_threads"

/-- The setting of a name. -/
def ofName? (name : String) : Option Setting := all.find? fun setting => setting.name == name

end Setting

/-- Reads an integer that is not negative. -/
def readNatural (text : Json.Text) : Option (Nat × Json.Text) :=
  match Json.readNumber (Json.skipBlanks text) with
  | some (.natural n, rest) => some (n, rest)
  | _ => none

/-- Reads the value of a setting into a configuration. -/
def readSetting (setting : Setting) (config : Config) (text : Json.Text) :
    Option (Config × Json.Text) :=
  match setting with
  | .capacity => (readNatural text).map fun (n, rest) => ({ config with capacity := n }, rest)
  | .chunkSize => (readNatural text).map fun (n, rest) => ({ config with chunkSize := n }, rest)
  | .scanThreads =>
    match Json.skipBlanks text with
    | 'n' :: rest =>
      (Json.dropWord? ['u', 'l', 'l'] rest).map fun rest =>
        ({ config with scanThreads := none }, rest)
    | text =>
      (readNatural text).map fun (n, rest) => ({ config with scanThreads := some n }, rest)

/-- Reads the members of an object up to its closing brace. `seen` are the settings given so far. -/
def readMembers : (fuel : Nat) → (seen : List Setting) → Config → Json.Text →
    Option (Config × Json.Text)
  | 0, _, _, _ => none
  | fuel + 1, seen, config, text => do
    let '"' :: rest := Json.skipBlanks text | none
    let (name, rest) ← Json.readString rest.length rest
    let ':' :: rest := Json.skipBlanks rest | none
    let (seen, config, rest) ←
      match Setting.ofName? name with
      | none => (Json.skip rest).map fun rest => (seen, config, rest)
      | some setting =>
        if setting ∈ seen then none
        else (readSetting setting config rest).map fun (config, rest) =>
          (setting :: seen, config, rest)
    match Json.skipBlanks rest with
    | ',' :: rest => readMembers fuel seen config rest
    | '\x7d' :: rest => some (config, rest)
    | _ => none

/-- Reads the items of an array that has at least one, up to its closing bracket, into the given
    settings. -/
def readItems : List Setting → Config → Json.Text → Option (Config × Json.Text)
  | [], _, _ => none
  | setting :: settings, config, text => do
    let (config, rest) ← readSetting setting config text
    match Json.skipBlanks rest with
    | ',' :: rest => readItems settings config rest
    | ']' :: rest => some (config, rest)
    | _ => none

/-- Reads a configuration. -/
def read (text : Json.Text) : Option (Config × Json.Text) :=
  match Json.skipBlanks text with
  | '\x7b' :: rest =>
    match Json.skipBlanks rest with
    | '\x7d' :: rest => some ({}, rest)
    | rest => readMembers (rest.length + 1) [] {} rest
  | '[' :: rest =>
    match Json.skipBlanks rest with
    | ']' :: rest => some ({}, rest)
    | rest => readItems Setting.all {} rest
  | _ => none

/-- A configuration that is usable, or the error for its fault (`validate`). -/
def validate (config : Config) : Except Error Config :=
  match config.fault? with
  | some fault => .error (.invalidConfig fault)
  | none => .ok config

/-- The configuration that a text gives (`from_json`). Fails if the text is none or gives an
    unusable one. -/
def ofText (text : String) : Except Error Config :=
  match read text.toList with
  | some (config, rest) =>
    if (Json.skipBlanks rest).isEmpty then config.validate else .error .json
  | none => .error .json

/-- The text that gives a configuration (`write_to`). -/
def toText (config : Config) : String :=
  let threads :=
    match config.scanThreads with
    | some n => toString n
    | none => "null"
  s!"\x7b\n  \"capacity\": {config.capacity},\n  \"chunk_size\": {config.chunkSize},\n"
    ++ s!"  \"scan_threads\": {threads}\n\x7d"

/-- The configuration kept in a file, none if there is no file (`read_from`). -/
def ofFile : Option String → Except Error (Option Config)
  | none => .ok none
  | some text => (ofText text).map some

end Config

end ColumnStore
