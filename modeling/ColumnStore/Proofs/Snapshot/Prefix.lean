import ColumnStore.Proofs.Snapshot.Encode
import ColumnStore.Proofs.Snapshot.Registered

/-!
# Snapshots and what follows them

No bytes that are accepted as a snapshot go on where others that are accepted end. Reading looks
ahead in places: it sees whether as many bytes are left as the chunks, the cells or the entries of a
dictionary need. It only asks whether there are enough, and more bytes are enough as well. So what
was read of some bytes is read of these with others behind them, and the others are left
(`Reader.Local`); a reader that ends with the bytes finds fault with the others (`Reader.Ends`).

* `ends_read`: the reader of snapshots does;
* `decode_append`, `decode_of_append`: accepted bytes are refused when they are continued and when
  they are cut short, whatever predicates are registered.
-/

namespace ColumnStore

namespace Reader

variable {α β : Type}

/-- What the reader gives of some bytes it gives of these with a tail, and leaves the tail. -/
def Local (x : Reader α) : Prop :=
  ∀ bytes a rest, x bytes = .ok (a, rest) → ∀ tail, x (bytes ++ tail) = .ok (a, rest ++ tail)

/-- The reader takes all bytes or fails, and with a tail behind bytes that it takes it fails for the
    tail. -/
def Ends (x : Reader α) : Prop :=
  ∀ bytes a rest, x bytes = .ok (a, rest) → rest = [] ∧
    ∀ tail, tail ≠ [] → x (bytes ++ tail) = .error (.trailing tail.length)

variable {x : Reader α}

theorem local_pure (a : α) : Local (Pure.pure a) := by
  intro bytes b rest h tail
  cases h
  rfl

theorem local_fail (cause : Corruption) : Local (Reader.fail cause : Reader α) := by
  intro bytes a rest h
  cases h

theorem Local.bind (h : Local x) {f : α → Reader β} (hf : ∀ a, Local (f a)) :
    Local (x >>= f) := by
  intro bytes b rest heq tail
  obtain ⟨a, left, hx, hfa⟩ := exists_of_bind heq
  rw [bind_apply, h bytes a left hx tail]
  exact hf a left b rest hfa tail

theorem local_require (ok : Bool) (cause : Corruption) : Local (Reader.require ok cause) := by
  intro bytes a rest h tail
  unfold Reader.require at h ⊢
  split_ifs at h ⊢
  cases h
  rfl

/-- Bytes that are enough stay enough. -/
theorem local_requireLeft (n : Nat) (cause : Corruption) : Local (Reader.requireLeft n cause) := by
  intro bytes a rest h tail
  unfold Reader.requireLeft at h ⊢
  simp only [Bytes.hasAtLeast_eq, decide_eq_true_eq] at h ⊢
  split_ifs at h with hle
  cases h
  rw [if_pos (by rw [List.length_append]; omega)]

theorem local_take (n : Nat) (part : String) : Local (Reader.take n part) := by
  intro bytes a rest h tail
  rw [take_apply] at h ⊢
  split_ifs at h with hle
  cases h
  rw [if_pos (by rw [List.length_append]; omega), List.take_append_of_le_length hle,
    List.drop_append_of_le_length hle]

theorem local_nat (width : Nat) (part : String) : Local (Reader.nat width part) :=
  (local_take width part).bind fun _ => local_pure _

theorem local_string (part : String) : Local (Reader.string part) := by
  refine (local_nat 4 part).bind fun length => (local_take length part).bind fun bytes => ?_
  cases bytes.toString? with
  | none => exact local_fail _
  | some s => exact local_pure s

theorem local_lift (e : Except Corruption α) : Local (liftM e) := by
  cases e with
  | error cause =>
    intro bytes a rest h
    cases h
  | ok a => exact local_pure a

theorem Local.replicate (h : Local x) (n : Nat) : Local (Reader.replicate x n) := by
  induction n with
  | zero => exact local_pure []
  | succ n ih => exact h.bind fun _ => ih.bind fun _ => local_pure _

theorem local_mapM {ι : Type} {f : ι → Reader α} {items : List ι} (h : ∀ i ∈ items, Local (f i)) :
    Local (items.mapM f) := by
  induction items with
  | nil => exact local_pure []
  | cons i rest ih =>
    rw [List.mapM_cons]
    refine (h i List.mem_cons_self).bind fun _ => ?_
    exact (ih fun j hj => h j (List.mem_cons_of_mem _ hj)).bind fun _ => local_pure _

theorem Local.bind_ends (h : Local x) {f : α → Reader β} (hf : ∀ a, Ends (f a)) :
    Ends (x >>= f) := by
  intro bytes b rest heq
  obtain ⟨a, left, hx, hfa⟩ := exists_of_bind heq
  obtain ⟨hrest, htail⟩ := hf a left b rest hfa
  refine ⟨hrest, fun tail hne => ?_⟩
  rw [bind_apply, h bytes a left hx tail]
  exact htail tail hne

/-- Nothing is read after the end. -/
theorem ends_finish (a : α) : Ends (Reader.finish >>= fun _ => Pure.pure a) := by
  intro bytes b rest h
  cases bytes with
  | nil =>
    cases h
    refine ⟨rfl, fun tail hne => ?_⟩
    obtain ⟨first, others, rfl⟩ := List.exists_cons_of_ne_nil hne
    rfl
  | cons first others => cases h

end Reader

open Reader (Local Ends local_pure local_fail local_require local_requireLeft local_take local_nat
  local_string local_lift local_mapM)

/-! ## The parts of snapshots -/

theorem Bitmap.local_read : Local Bitmap.read :=
  (local_nat 4 _).bind fun count => (local_take (count * 8) _).bind fun _ => local_pure _

theorem Dictionary.local_read : Local Dictionary.read := by
  refine (local_requireLeft 8 _).bind fun _ => (local_nat 4 _).bind fun count => ?_
  refine (local_nat 4 _).bind fun size => (local_take (count * 8) _).bind fun places => ?_
  refine (local_take size _).bind fun data => ?_
  exact (local_mapM fun _ _ => local_lift _).bind fun _ => local_pure _

/-- The bytes of a stored value are cut off by their length, and the value is looked for in these
    alone. -/
theorem Cell.local_read (kind : Kind) : Local (Cell.read kind) := by
  cases kind with
  | float64 => exact (local_nat 8 _).bind fun _ => local_pure _
  | bool => exact (local_nat 1 _).bind fun _ => local_pure _
  | enum => exact (local_nat 4 _).bind fun _ => local_pure _
  | any =>
    refine (local_nat 4 _).bind fun length => (local_take length _).bind fun bytes => ?_
    cases Value.decode? bytes with
    | none => exact local_fail _
    | some v => exact local_pure _

theorem Segment.local_read (kind : Kind) (chunkSize : Nat) :
    Local (Segment.read kind chunkSize) := by
  refine (local_nat 1 _).bind fun code => ?_
  cases Kind.ofCode? code with
  | none => exact local_fail _
  | some found =>
    refine (local_require _ _).bind fun _ => (local_nat 4 _).bind fun capacity => ?_
    refine (local_require _ _).bind fun _ => Bitmap.local_read.bind fun presence => ?_
    refine (local_require _ _).bind fun _ => (local_requireLeft _ _).bind fun _ => ?_
    exact (local_mapM fun _ _ => Cell.local_read kind).bind fun _ => local_pure _

namespace Snapshot

theorem local_readSegment (column : Column) (dictionary : Dictionary) (chunkSize : Nat) :
    Local (readSegment column dictionary chunkSize) :=
  (Segment.local_read column.kind chunkSize).bind fun _ =>
    (local_require _ _).bind fun _ => local_pure _

theorem local_readDictionary (kind : Kind) : Local (readDictionary kind) := by
  unfold readDictionary
  split_ifs
  · exact Dictionary.local_read
  · exact local_pure _

theorem local_readColumn (chunkSize chunkCount : Nat) : Local (readColumn chunkSize chunkCount) := by
  refine (local_string _).bind fun name => (local_nat 1 _).bind fun code => ?_
  cases Kind.ofCode? code with
  | none => exact local_fail _
  | some kind =>
    refine (local_readDictionary kind).bind fun dictionary => ?_
    exact ((local_readSegment _ dictionary chunkSize).replicate chunkCount).bind fun _ =>
      local_pure _

theorem local_readColumns (chunkSize chunkCount n : Nat) (schema : Schema) :
    Local (readColumns chunkSize chunkCount n schema) := by
  induction n generalizing schema with
  | zero => exact local_pure _
  | succ n ih =>
    refine (local_readColumn chunkSize chunkCount).bind fun stored => ?_
    cases schema.addColumn stored.column with
    | error e => exact local_fail _
    | ok schema => exact (ih schema).bind fun _ => local_pure _

theorem local_readIndex (registered schema : Schema) (chunkSize chunkCount : Nat) :
    Local (readIndex registered schema chunkSize chunkCount) := by
  refine (local_string _).bind fun name => (local_string _).bind fun source => ?_
  cases schema.column? source with
  | none => exact local_fail _
  | some found =>
    have hbitmap : Local (readIndexBitmap name chunkSize) :=
      Bitmap.local_read.bind fun _ => (local_require _ _).bind fun _ => local_pure _
    exact (hbitmap.replicate chunkCount).bind fun _ => local_pure _

theorem local_readIndexes (registered : Schema) (chunkSize chunkCount n : Nat) (schema : Schema) :
    Local (readIndexes registered chunkSize chunkCount n schema) := by
  induction n generalizing schema with
  | zero => exact local_pure _
  | succ n ih =>
    refine (local_readIndex registered schema chunkSize chunkCount).bind fun stored => ?_
    cases schema.addIndex stored.index with
    | error e => exact local_fail _
    | ok schema => exact (ih schema).bind fun _ => local_pure _

theorem local_readFills (chunkSize watermark n id : Nat) :
    Local (readFills chunkSize watermark n id) := by
  induction n generalizing id with
  | zero => exact local_pure _
  | succ n ih =>
    have hfill : Local (readFill chunkSize watermark id) :=
      Bitmap.local_read.bind fun _ => (local_require _ _).bind fun _ =>
        (local_require _ _).bind fun _ => local_pure _
    exact hfill.bind fun _ => (ih (id + 1)).bind fun _ => local_pure _

/-! ## Whole snapshots -/

theorem ends_read (chunkSize : Nat) (registered : Schema) : Ends (read chunkSize registered) := by
  refine (local_take 4 _).bind_ends fun front => (local_require _ _).bind_ends fun _ => ?_
  refine (local_nat 2 _).bind_ends fun found => (local_require _ _).bind_ends fun _ => ?_
  refine (local_nat 4 _).bind_ends fun size => (local_require _ _).bind_ends fun _ => ?_
  refine (local_nat 4 _).bind_ends fun chunkCount => (local_requireLeft _ _).bind_ends fun _ => ?_
  refine (local_nat 4 _).bind_ends fun columnCount => ?_
  refine (local_readColumns chunkSize chunkCount columnCount .empty).bind_ends fun columns => ?_
  refine (local_nat 4 _).bind_ends fun indexCount => ?_
  refine (local_readIndexes registered chunkSize chunkCount indexCount _).bind_ends
    fun indexes => ?_
  refine (local_nat 8 _).bind_ends fun watermark => (local_nat 8 _).bind_ends fun live => ?_
  refine (local_require _ _).bind_ends fun _ => ?_
  refine (local_readFills chunkSize watermark chunkCount 0).bind_ends fun fills => ?_
  exact (local_require _ _).bind_ends fun _ => Reader.ends_finish _

/-- Accepted bytes with others behind them are refused for these, whatever is registered. -/
theorem decode_append {chunkSize : Nat} {registered : Schema} {bytes : Bytes} {table : Table}
    (h : decode chunkSize registered bytes = .ok table) (registered' : Schema) {tail : Bytes}
    (htail : tail ≠ []) :
    decode chunkSize registered' (bytes ++ tail) = .error (.trailing tail.length) := by
  rw [decode_eq] at h ⊢
  unfold decode at h ⊢
  cases hread : read chunkSize .empty bytes with
  | error cause =>
    rw [hread] at h
    cases h
  | ok result =>
    rw [(ends_read chunkSize .empty bytes result.1 result.2 hread).2 tail htail]
    rfl

/-- Bytes that are accepted with others behind them are refused alone. -/
theorem decode_of_append {chunkSize : Nat} {registered : Schema} {front tail : Bytes}
    {table : Table} (h : decode chunkSize registered (front ++ tail) = .ok table)
    (registered' : Schema) (htail : tail ≠ []) :
    ∃ cause, decode chunkSize registered' front = .error cause := by
  cases hfront : decode chunkSize registered' front with
  | error cause => exact ⟨cause, rfl⟩
  | ok other =>
    rw [decode_append hfront registered htail] at h
    cases h

end Snapshot

end ColumnStore
