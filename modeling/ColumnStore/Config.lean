/-!
# Configuration

A collection's configuration: the number of rows to make room for, the rows in one chunk, and the
threads that scan. `Config.check` says which configurations are usable.
-/

namespace ColumnStore

/-- How a collection is laid out (`CollectionConfig`). No thread count means that one is chosen to
    fit the machine; it never changes an answer. -/
structure Config where
  capacity : Nat := 1024
  chunkSize : Nat := 16384
  scanThreads : Option Nat := none
deriving DecidableEq, Inhabited

namespace Config

/-- The least rows in a chunk. -/
def minChunkSize : Nat := 64

/-- The most rows in a chunk, so that a stored chunk size fits 32 bits. -/
def maxChunkSize : Nat := 1 <<< 31

/-- What makes a configuration unusable. -/
inductive Fault where
  | chunkSize (got : Nat)
  | noThreads
deriving DecidableEq

/-- The text that explains a fault. -/
def Fault.message : Fault → String
  | .chunkSize got =>
    s!"chunk_size must be a power of two in [{minChunkSize}, {maxChunkSize}], got {got}"
  | .noThreads => "scan_threads must be at least 1"

/-- Whether `n` is a power of two. -/
def isPowerOfTwo (n : Nat) : Bool := n != 0 && 1 <<< n.log2 == n

/-- The first fault of a configuration, if it has one (`validate`). -/
def fault? (config : Config) : Option Fault :=
  if config.chunkSize < minChunkSize || maxChunkSize < config.chunkSize
      || !isPowerOfTwo config.chunkSize then
    some (.chunkSize config.chunkSize)
  else if config.scanThreads = some 0 then some .noThreads
  else none

/-- The defaults with room for `capacity` rows (`with_capacity`). -/
def withCapacity (capacity : Nat) : Config := { capacity }

/-- A configuration written out for a reader of logs. -/
def describe (config : Config) : String :=
  let threads :=
    match config.scanThreads with
    | some n => s!"Some({n})"
    | none => "None"
  s!"CollectionConfig \x7b capacity: {config.capacity}, chunk_size: {config.chunkSize}, "
    ++ s!"scan_threads: {threads} \x7d"

end Config

end ColumnStore
