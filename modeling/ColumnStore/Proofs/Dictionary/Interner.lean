import ColumnStore.Proofs.Dictionary
import ColumnStore.Proofs.Segment.Scan

/-!
# Interners

A dictionary has every text in its entry, and an id is found by going through the entries. An
interner has neither. Its texts are only in the run of bytes, each is cut out by its place whenever
it is asked for, and ids are found in a map from texts to ids. The map is not stored: whoever reads
an interner makes a new one, entry by entry, and a later entry takes the place of an earlier one
with the same text. Places and ids are numbers of 32 bits.

So three structures have to be kept in step. That they are is what `Mirrors` says: the interner has
the bytes and the places of a dictionary, and its map finds what the dictionary finds.

* `Mirrors.get?_eq`, `Mirrors.evaluate_eq`: what is cut out of the bytes are the dictionary's texts;
* `Mirrors.intern`, `Mirrors.of_intern`: interning does the same to both;
* `Mirrors.encode_eq`, `parse_tracks`: both are stored alike, and bytes are accepted as one if they
  are accepted as the other, with a map that was made anew and mirrors again.
-/

namespace ColumnStore

/-- Texts one after the other, the offset and length of each, and a map from texts to ids. -/
structure Interner where
  data : Array UInt8
  places : Array (UInt32 × UInt32)
  index : Std.HashMap String UInt32

namespace Interner

/-- No texts (`new`). -/
def empty : Interner := ⟨#[], #[], ∅⟩

/-- Number of ids given out (`len`). -/
def size (t : Interner) : Nat := t.places.size

/-- The id of a text, from the map (`lookup`). -/
def lookup (t : Interner) (s : String) : Option UInt32 := t.index[s]?

/-- The text of an id, cut out of the bytes (`get`). -/
def get? (t : Interner) (id : UInt32) : Option String := do
  let (offset, length) ← t.places[id.toNat]?
  let stop := offset.toNat + length.toNat
  if stop ≤ t.data.size then String.fromUTF8? ⟨t.data.extract offset.toNat stop⟩ else none

/-- The interner with one more text at its end. -/
def push (t : Interner) (s : String) : Interner :=
  ⟨t.data ++ s.toUTF8.data, t.places.push (.ofNat t.data.size, .ofNat s.utf8ByteSize),
    t.index.insert s (.ofNat t.places.size)⟩

/-- The id of a text, and the interner then (`intern`). A text that is not in the map comes to the
    end and gets the next id. The bytes are asserted to be fewer than the greatest number of 32
    bits. -/
def intern (t : Interner) (s : String) : Checked (UInt32 × Interner) :=
  match t.lookup s with
  | some id => .ok (id, t)
  | none =>
    if t.data.size + s.utf8ByteSize < 2 ^ 32 - 1 then .ok (.ofNat t.places.size, t.push s)
    else .error .overflow

/-- What `f` says of the text of each id (`evaluate`). -/
def evaluate (t : Interner) (f : String → Bool) : Array Bool :=
  (Array.range (UInt32.ofNat t.places.size).toNat).map fun id =>
    ((t.get? (.ofNat id)).map f).getD false

/-- The stored form, without the map (`write_to`). -/
def encode (t : Interner) : Bytes :=
  Bytes.ofNat 4 (UInt32.ofNat t.places.size).toNat ++ Bytes.ofNat 4 (UInt32.ofNat t.data.size).toNat
    ++ t.places.toList.flatMap (fun (offset, length) =>
      Bytes.ofNat 4 offset.toNat ++ Bytes.ofNat 4 length.toNat)
    ++ t.data.toList

/-- Bytes in the stored form (`serialized_size`). -/
def encodedSize (t : Interner) : Nat := 4 + 4 + t.places.size * 8 + t.data.size

/-- The map with the texts at some places, whose ids are counted from `id` on. Each has to lie in
    the bytes and to be a text. -/
def indexFrom (data : Bytes) :
    List (Nat × Nat) → (id : Nat) → Std.HashMap String UInt32 → Checked (Std.HashMap String UInt32)
  | [], _, index => pure index
  | place :: rest, id, index => do
    let entry ← Dictionary.entryIn data place
    indexFrom data rest (id + 1) (index.insert entry.text (.ofNat id))

/-- Parses the interner at the front of some bytes and makes its map (`from_bytes`). -/
def parse (bytes : Bytes) : Checked Interner := do
  let (places, data) ← Dictionary.parseParts bytes
  let index ← indexFrom data places 0 ∅
  pure ⟨data.toArray,
    (places.map fun (offset, length) => (UInt32.ofNat offset, UInt32.ofNat length)).toArray, index⟩

end Interner

/-! ## Looking up in a dictionary that grows -/

namespace Dictionary

/-- What is found among the first entries does not depend on the others. -/
theorem lookupBelow_congr {entries entries' : Array Entry} (s : String) {n : Nat}
    (h : ∀ id < n, entries'[id]? = entries[id]?) :
    lookupBelow entries' s n = lookupBelow entries s n := by
  induction n with
  | zero => rfl
  | succ n ih =>
    rw [lookupBelow, lookupBelow, h n (Nat.lt_succ_self n),
      ih fun id hid => h id (Nat.lt_succ_of_lt hid)]

/-- A new entry is found under its text, and no other text is found elsewhere than before. -/
theorem lookupBelow_push (entries : Array Entry) (entry : Entry) (s : String) :
    lookupBelow (entries.push entry) s (entries.push entry).size =
      if entry.text = s then some entries.size else lookupBelow entries s entries.size := by
  have hrest : lookupBelow (entries.push entry) s entries.size =
      lookupBelow entries s entries.size :=
    lookupBelow_congr s fun id hid => by rw [Array.getElem?_push, if_neg (Nat.ne_of_lt hid)]
  rw [Array.size_push, lookupBelow, Array.getElem?_push, if_pos rfl, hrest]

theorem lookup_push (d : Dictionary) (s text : String) :
    (d.push s).lookup text = if s = text then some d.size else d.lookup text :=
  lookupBelow_push d.entries _ text

end Dictionary

/-! ## Mirrors -/

namespace Interner

open Checked (Tracks)
open Dictionary (Entry entryAt entryIn lookupBelow)

/-- The interner has the bytes and the places of a well-formed dictionary, and its map finds what
    the dictionary finds. -/
structure Mirrors (t : Interner) (d : Dictionary) : Prop where
  wellFormed : d.WellFormed
  data : t.data = d.data
  places : t.places.map (fun (offset, length) => (offset.toNat, length.toNat)) =
    d.entries.map fun entry => (entry.offset, entry.length)
  lookup : ∀ s, (t.lookup s).map UInt32.toNat = d.lookup s

theorem mirrors_empty : Mirrors empty .empty where
  wellFormed := Dictionary.wellFormed_empty
  data := rfl
  places := by simp [empty, Dictionary.empty]
  lookup s := by
    rw [Interner.lookup, empty, Std.HashMap.getElem?_empty]
    rfl

variable {t : Interner} {d : Dictionary}

namespace Mirrors

theorem size_eq (h : t.Mirrors d) : t.size = d.size := by
  have hsize := congrArg Array.size h.places
  rwa [Array.size_map, Array.size_map] at hsize

theorem lookup_eq (h : t.Mirrors d) (s : String) : t.lookup s = (d.lookup s).map UInt32.ofNat := by
  rw [← h.lookup, Option.map_map]
  simp [Function.comp_def]

/-- The text of an id is where its place says. -/
theorem get?_eq (h : t.Mirrors d) (id : UInt32) : t.get? id = d.get? id.toNat := by
  have hplace := congrArg (·[id.toNat]?) h.places
  simp only [Array.getElem?_map] at hplace
  unfold Interner.get? Dictionary.get?
  cases hentry : d.entries[id.toNat]? with
  | none =>
    rw [hentry, Option.map_none, Option.map_eq_none_iff] at hplace
    rw [hplace]
    rfl
  | some entry =>
    rw [hentry, Option.map_some, Option.map_eq_some_iff] at hplace
    obtain ⟨⟨offset, length⟩, hat, heq⟩ := hplace
    obtain ⟨hoffset, hlength⟩ := Prod.ext_iff.mp heq
    obtain ⟨hle, htext⟩ :=
      Dictionary.entryAt_eq_ok_iff.mp (h.wellFormed entry (Array.mem_of_getElem? hentry))
    dsimp only at hoffset hlength
    rw [hat]
    simp only [Option.bind_eq_bind, Option.bind_some, hoffset, hlength, h.data, if_pos hle, htext,
      Option.map_some]

/-- A predicate is asked of the dictionary's texts, by id. -/
theorem evaluate_eq (h : t.Mirrors d) (hsize : d.size < 2 ^ 32) (f : String → Bool) :
    t.evaluate f = d.evaluate f := by
  have hcount : (UInt32.ofNat t.places.size).toNat = d.size := by
    rw [show t.places.size = d.size from h.size_eq, UInt32.toNat_ofNat_of_lt' hsize]
  apply Array.ext_getElem?
  intro id
  rw [evaluate, Dictionary.evaluate, hcount, Array.getElem?_map, Array.getElem?_map]
  rcases Nat.lt_or_ge id d.size with hlt | hge
  · have hentry := Array.getElem?_eq_getElem (show id < d.entries.size from hlt)
    have hget := h.get?_eq (.ofNat id)
    rw [UInt32.toNat_ofNat_of_lt' (hlt.trans hsize), Dictionary.get?, hentry] at hget
    rw [Array.getElem?_range, if_pos hlt, hentry, Option.map_some, hget]
    rfl
  · rw [Array.getElem?_eq_none (by simpa using hge), Array.getElem?_eq_none hge]
    rfl

/-! ### Interning -/

theorem push (h : t.Mirrors d) {s : String} (hsize : d.size < 2 ^ 32)
    (hbytes : d.data.size + s.utf8ByteSize < 2 ^ 32) : (t.push s).Mirrors (d.push s) where
  wellFormed := h.wellFormed.push s
  data := congrArg (· ++ s.toUTF8.data) h.data
  places := by
    rw [Interner.push, Dictionary.push, Array.map_push, Array.map_push, h.places, h.data]
    dsimp only
    rw [UInt32.toNat_ofNat_of_lt' (show d.data.size < 2 ^ 32 by omega),
      UInt32.toNat_ofNat_of_lt' (show s.utf8ByteSize < 2 ^ 32 by omega)]
  lookup text := by
    rw [Dictionary.lookup_push, Interner.lookup, Interner.push, Std.HashMap.getElem?_insert,
      ← h.lookup, show t.places.size = d.size from h.size_eq]
    simp only [beq_iff_eq]
    split_ifs
    · rw [Option.map_some, UInt32.toNat_ofNat_of_lt' hsize]
    · rfl

theorem intern_of_lookup (h : t.Mirrors d) {s : String} {id : Nat} (hid : d.lookup s = some id) :
    t.intern s = .ok (.ofNat id, t) := by
  rw [Interner.intern, h.lookup_eq, hid, Option.map_some]

theorem intern_of_new (h : t.Mirrors d) {s : String} (hnew : d.lookup s = none) :
    t.intern s = if d.data.size + s.utf8ByteSize < 2 ^ 32 - 1 then .ok (.ofNat d.size, t.push s)
      else .error .overflow := by
  rw [Interner.intern, h.lookup_eq, hnew, Option.map_none, ← h.size_eq, ← h.data]
  rfl

/-- Where there is room, interning gives the dictionary's id and the mirror of what it makes of the
    dictionary. -/
theorem intern (h : t.Mirrors d) {s : String} (hsize : d.size < 2 ^ 32)
    (hbytes : d.lookup s = none → d.data.size + s.utf8ByteSize < 2 ^ 32 - 1) :
    ∃ t', t.intern s = .ok (.ofNat (d.intern s).1, t') ∧ t'.Mirrors (d.intern s).2 := by
  unfold Dictionary.intern
  cases hlookup : d.lookup s with
  | some id => exact ⟨t, h.intern_of_lookup hlookup, h⟩
  | none =>
    have hroom := hbytes hlookup
    refine ⟨t.push s, ?_, h.push hsize (by omega)⟩
    rw [h.intern_of_new hlookup, if_pos hroom]

/-- Whatever interning gives mirrors what it makes of the dictionary. -/
theorem of_intern (h : t.Mirrors d) {s : String} (hsize : d.size < 2 ^ 32) {id : UInt32}
    {t' : Interner} (hintern : t.intern s = .ok (id, t')) : t'.Mirrors (d.intern s).2 := by
  have hroom : d.lookup s = none → d.data.size + s.utf8ByteSize < 2 ^ 32 - 1 := by
    intro hnew
    rw [h.intern_of_new hnew] at hintern
    by_contra hfull
    rw [if_neg hfull] at hintern
    cases hintern
  obtain ⟨t₁, hintern₁, hmirrors⟩ := h.intern hsize hroom
  rw [hintern] at hintern₁
  obtain ⟨-, rfl⟩ := Prod.ext_iff.mp (Except.ok.inj hintern₁)
  exact hmirrors

/-! ### Storing -/

/-- An interner is stored as its dictionary is. -/
theorem encode_eq (h : t.Mirrors d) : t.encode = d.encode := by
  have hcut (n : Nat) : Bytes.ofNat 4 (UInt32.ofNat n).toNat = Bytes.ofNat 4 n := by
    rw [UInt32.toNat_ofNat']
    exact Bytes.ofNat_mod 4 n
  have hplaces : (t.places.toList.flatMap fun (offset, length) =>
      Bytes.ofNat 4 offset.toNat ++ Bytes.ofNat 4 length.toNat) =
        d.entries.toList.flatMap Entry.encode := by
    have hlists := congrArg Array.toList h.places
    rw [Array.toList_map, Array.toList_map] at hlists
    have hwritten := congrArg (List.flatMap fun place : Nat × Nat =>
      Bytes.ofNat 4 place.1 ++ Bytes.ofNat 4 place.2) hlists
    rwa [List.flatMap_map, List.flatMap_map] at hwritten
  rw [encode, Dictionary.encode, hplaces, hcut, hcut, h.data,
    show t.places.size = d.entries.size from h.size_eq]

theorem encodedSize_eq (h : t.Mirrors d) : t.encodedSize = d.encodedSize := by
  rw [encodedSize, Dictionary.encodedSize, h.data,
    show t.places.size = d.entries.size from h.size_eq]

end Mirrors

theorem length_encode (t : Interner) : t.encode.length = t.encodedSize := by
  have hplaces : (t.places.toList.flatMap fun (offset, length) =>
      Bytes.ofNat 4 offset.toNat ++ Bytes.ofNat 4 length.toNat).length = t.places.size * 8 := by
    rw [Bytes.length_flatMap_of_forall fun place _ => by
      rw [List.length_append, Bytes.length_ofNat, Bytes.length_ofNat], Array.length_toList]
  rw [encode, List.length_append, List.length_append, List.length_append, Bytes.length_ofNat,
    Bytes.length_ofNat, hplaces, Array.length_toList]
  rfl

/-! ### Making the map anew -/

/-- A map that finds what the entries so far give, and is then given the texts at more places, finds
    what all entries give. -/
theorem indexFrom_tracks {data : Bytes} {places : List (Nat × Nat)}
    (hplaces : ∀ place ∈ places, place.1 < 2 ^ 32 ∧ place.2 < 2 ^ 32) {entries : Array Entry}
    (hcount : entries.size + places.length ≤ 2 ^ 32) {index : Std.HashMap String UInt32}
    (hindex : ∀ s : String, index[s]?.map UInt32.toNat = lookupBelow entries s entries.size) :
    Tracks (fun (index' : Std.HashMap String UInt32) more => ∀ s : String,
        index'[s]?.map UInt32.toNat =
          lookupBelow (entries ++ more.toArray) s (entries ++ more.toArray).size)
      (indexFrom data places entries.size index)
      ((places.mapM (entryAt data.toArray)).mapError .corruptSnapshot) := by
  induction places generalizing entries index with
  | nil =>
    refine .ok fun s => ?_
    rw [show entries ++ [].reverse.toArray = entries from Array.append_empty]
    exact hindex s
  | cons place rest ih =>
    rw [List.forall_mem_cons] at hplaces
    rw [List.length_cons] at hcount
    rw [indexFrom, List.mapM_cons, Dictionary.entryIn_eq data hplaces.1]
    cases entryAt data.toArray place with
    | error cause => exact .refused _
    | ok entry =>
      have hnext : ∀ s : String,
          (index.insert entry.text (.ofNat entries.size))[s]?.map UInt32.toNat =
            lookupBelow (entries.push entry) s (entries.push entry).size := by
        intro s
        rw [Dictionary.lookupBelow_push, Std.HashMap.getElem?_insert, ← hindex]
        simp only [beq_iff_eq]
        split_ifs
        · rw [Option.map_some, UInt32.toNat_ofNat_of_lt' (show entries.size < 2 ^ 32 by omega)]
        · rfl
      have hrest := ih hplaces.2 (by rw [Array.size_push]; omega) hnext
      rw [Array.size_push] at hrest
      have hall : ∀ others : List Entry,
          entries.push entry ++ others.toArray = entries ++ (entry :: others).toArray := by simp
      show Tracks _ (indexFrom data rest (entries.size + 1)
        (index.insert entry.text (.ofNat entries.size))) _
      generalize indexFrom data rest (entries.size + 1) _ = made at hrest ⊢
      cases hothers : rest.mapM (entryAt data.toArray) with
      | error cause =>
        rw [hothers] at hrest
        cases hrest
        exact .refused _
      | ok others =>
        rw [hothers] at hrest
        simp only [hall] at hrest
        cases hrest with
        | ok hmade => exact .ok hmade

/-- Bytes are accepted as an interner if they are accepted as a dictionary, which the interner then
    mirrors, and otherwise they are refused for the same cause. -/
theorem parse_tracks (bytes : Bytes) :
    Tracks Mirrors (parse bytes) ((Dictionary.decode bytes).mapError .corruptSnapshot) := by
  have hparts := Dictionary.partsFound bytes
  rw [parse, Dictionary.decode]
  generalize hread : Dictionary.read bytes = found at hparts ⊢
  generalize Dictionary.parseParts bytes = parts at hparts ⊢
  cases hparts with
  | refused cause => exact .refused _
  | @ok places data hcount hplaces _ _ =>
    rw [Checked.ok_bind]
    dsimp only
    have hempty : ∀ s : String,
        (∅ : Std.HashMap String UInt32)[s]?.map UInt32.toNat = lookupBelow #[] s 0 := by
      intro s
      rw [Std.HashMap.getElem?_empty]
      rfl
    have hindex := @indexFrom_tracks data places hplaces #[] (by simpa using hcount.le) ∅ hempty
    rw [Dictionary.readEntries_eq] at hread ⊢
    simp only [Array.size_empty, Array.empty_append] at hindex
    generalize indexFrom data places 0 ∅ = made at hindex ⊢
    cases hentries : places.mapM (entryAt data.toArray) with
    | error cause =>
      rw [hentries] at hindex
      cases hindex
      exact .refused _
    | ok entries =>
      rw [hentries] at hindex hread
      cases hindex with
      | ok hmade =>
        refine .ok ⟨Dictionary.yields_read bytes _ _ hread, rfl, ?_, hmade⟩
        -- the places are read as numbers of 32 bits, so none of them is cut
        have hcast : ∀ place ∈ places,
            ((UInt32.ofNat place.1).toNat, (UInt32.ofNat place.2).toNat) = place := by
          intro place hmem
          rw [UInt32.toNat_ofNat_of_lt' (hplaces place hmem).1,
            UInt32.toNat_ofNat_of_lt' (hplaces place hmem).2]
        rw [List.map_toArray, List.map_toArray, Dictionary.map_place_of_mapM hentries, List.map_map]
        exact congrArg List.toArray ((List.map_congr_left hcast).trans (List.map_id places))

theorem exists_decode {bytes : Bytes} (h : parse bytes = .ok t) :
    ∃ d, Dictionary.decode bytes = .ok d ∧ t.Mirrors d := by
  have htracks := parse_tracks bytes
  rw [h] at htracks
  cases hdecode : Dictionary.decode bytes with
  | error cause =>
    rw [hdecode] at htracks
    cases htracks
  | ok d =>
    rw [hdecode] at htracks
    cases htracks with
    | ok hmirrors => exact ⟨d, rfl, hmirrors⟩

theorem exists_parse {bytes : Bytes} (h : Dictionary.decode bytes = .ok d) :
    ∃ t, parse bytes = .ok t ∧ t.Mirrors d := by
  have htracks := parse_tracks bytes
  rw [h] at htracks
  generalize parse bytes = parsed at htracks
  cases htracks with
  | ok hmirrors => exact ⟨_, rfl, hmirrors⟩

end Interner

end ColumnStore
