import ColumnStore.Proofs.Column
import ColumnStore.Proofs.Dictionary.Ids

/-!
# Interners over a history of texts

An interner starts empty, interns texts and is stored and read again any number of times. Only the
run of bytes and the places are stored, and the map from texts to ids is made anew, so what is read
could differ from what was stored. It does not: at any time the interner mirrors the dictionary that
has the texts interned so far laid one after the other, each where it first came (`Mirrors.apply`),
and storing and reading give back a mirror of that dictionary (`Mirrors.reload`).

A column of texts with its interner does what it does with the dictionary that the interner mirrors
(`InternedColumn.Mirrors.encode`, `InternedColumn.Mirrors.decode_eq`).

`intern_in_order` says what this means for ids and for the cells of a column. The texts together are
shorter than 32 bits can count. Then so are the ids, since only one text is empty (`length_lt`), no
assertion fails and nothing is cut off in the places and in the stored form.
-/

namespace ColumnStore

namespace Dictionary

/-! ## The dictionary of given texts -/

/-- Texts laid one after the other, with ids in their order. -/
def ofTexts (texts : List String) : Dictionary := texts.foldl push empty

theorem ofTexts_append_singleton (texts : List String) (s : String) :
    ofTexts (texts ++ [s]) = (ofTexts texts).push s := by
  rw [ofTexts, List.foldl_append]
  rfl

@[simp] theorem texts_ofTexts (texts : List String) : (ofTexts texts).texts = texts := by
  induction texts using List.reverseRecOn with
  | nil => rfl
  | append_singleton texts s ih => rw [ofTexts_append_singleton, texts_push, ih]

theorem wellFormed_ofTexts (texts : List String) : (ofTexts texts).WellFormed := by
  induction texts using List.reverseRecOn with
  | nil => exact wellFormed_empty
  | append_singleton texts s ih =>
    rw [ofTexts_append_singleton]
    exact ih.push s

/-- The bytes of texts together. -/
def bytesOf (texts : List String) : Nat := (texts.map String.utf8ByteSize).sum

theorem bytesOf_append_singleton (texts : List String) (s : String) :
    bytesOf (texts ++ [s]) = bytesOf texts + s.utf8ByteSize := by
  simp [bytesOf]

theorem size_data_ofTexts (texts : List String) : (ofTexts texts).data.size = bytesOf texts := by
  induction texts using List.reverseRecOn with
  | nil => rfl
  | append_singleton texts s ih =>
    rw [ofTexts_append_singleton, bytesOf_append_singleton, ← ih, push, Array.size_append]
    exact congrArg _ s.size_toByteArray

/-- Every text takes a byte or more, but the empty one, which is there once at most. -/
theorem length_le_bytesOf {texts : List String} (h : texts.Nodup) :
    texts.length ≤ bytesOf texts + if "" ∈ texts then 1 else 0 := by
  induction texts with
  | nil => exact Nat.zero_le _
  | cons s rest ih =>
    obtain ⟨hnot, hrest⟩ := List.nodup_cons.mp h
    have hle := ih hrest
    have hsum : bytesOf (s :: rest) = s.utf8ByteSize + bytesOf rest := by simp [bytesOf]
    rw [List.length_cons, hsum]
    by_cases hs : s = ""
    · subst hs
      rw [if_neg hnot] at hle
      rw [if_pos List.mem_cons_self]
      omega
    · have hpos : s.utf8ByteSize ≠ 0 := fun h0 => hs (String.utf8ByteSize_eq_zero_iff.mp h0)
      have hmem : "" ∈ s :: rest ↔ "" ∈ rest := by simp [Ne.symm hs]
      simp only [hmem]
      omega

theorem length_lt {texts : List String} (h : texts.Nodup) (hbytes : bytesOf texts < 2 ^ 32 - 1) :
    texts.length < 2 ^ 32 := by
  have hle := length_le_bytesOf h
  split_ifs at hle <;> omega

theorem intern_ofTexts (texts : List String) (s : String) :
    ((ofTexts texts).intern s).2 = ofTexts (if s ∈ texts then texts else texts ++ [s]) := by
  by_cases hmem : s ∈ (ofTexts texts).texts
  · obtain ⟨id, hlookup⟩ := exists_lookup_of_mem hmem
    rw [texts_ofTexts] at hmem
    rw [intern_of_lookup hlookup, if_pos hmem]
  · rw [intern_of_not_mem hmem]
    rw [texts_ofTexts] at hmem
    rw [if_neg hmem, ofTexts_append_singleton]

theorem bytesOf_mono {texts more : List String} (h : texts <+: more) :
    bytesOf texts ≤ bytesOf more := by
  obtain ⟨rest, rfl⟩ := h
  simp [bytesOf]

/-- A dictionary of different texts is read back if their bytes can be counted. -/
theorem decode_encode_ofTexts {texts : List String} (h : texts.Nodup)
    (hbytes : bytesOf texts < 2 ^ 32 - 1) :
    decode (ofTexts texts).encode = .ok (ofTexts texts) := by
  have hentriesLt : (ofTexts texts).entries.size < 2 ^ 32 := by
    rw [← size, ← length_texts, texts_ofTexts]
    exact length_lt h hbytes
  have hdataLt : (ofTexts texts).data.size < 2 ^ 32 := by
    rw [size_data_ofTexts]
    omega
  have hreads := reads_encode (wellFormed_ofTexts texts) hentriesLt hdataLt
  exact Reader.map_fst_eq_ok_iff.mpr ⟨[], by simpa using hreads []⟩

end Dictionary

/-! ## Runs -/

namespace Interner

open Dictionary (bytesOf bytesOf_mono ofTexts texts_ofTexts)

/-- What happens to an interner: a text is interned, or it is stored and read again. -/
inductive Event where
  | intern (s : String)
  | reload

/-- The text that is interned. -/
def Event.text? : Event → Option String
  | intern s => some s
  | reload => none

/-- The interner after an event. -/
def Event.apply (t : Interner) : Event → Checked Interner
  | intern s => (t.intern s).map Prod.snd
  | reload => parse t.encode

/-- The interner after events in order. -/
def run (t : Interner) (events : List Event) : Checked Interner := events.foldlM Event.apply t

/-- The texts that events intern, each where it first comes. -/
def firstTexts (events : List Event) : List String := (events.filterMap Event.text?).eraseDups

theorem run_cons (t : Interner) (event : Event) (events : List Event) :
    t.run (event :: events) = event.apply t >>= fun t' => t'.run events := List.foldlM_cons

theorem eraseDups_append_singleton (texts : List String) (s : String) :
    (texts ++ [s]).eraseDups =
      if s ∈ texts.eraseDups then texts.eraseDups else texts.eraseDups ++ [s] := by
  rw [List.eraseDups_append]
  by_cases hmem : s ∈ texts
  · simp [List.removeAll, hmem]
  · simp [List.removeAll, hmem, List.eraseDups_cons]

theorem firstTexts_append_intern (events : List Event) (s : String) :
    firstTexts (events ++ [.intern s]) =
      if s ∈ firstTexts events then firstTexts events else firstTexts events ++ [s] := by
  rw [firstTexts, List.filterMap_append]
  exact eraseDups_append_singleton (events.filterMap Event.text?) s

theorem firstTexts_append_reload (events : List Event) :
    firstTexts (events ++ [.reload]) = firstTexts events := by
  rw [firstTexts, List.filterMap_append]
  exact congrArg List.eraseDups (List.append_nil _)

/-- A longer history only adds texts at the end. -/
theorem prefix_firstTexts (before after : List Event) :
    firstTexts before <+: firstTexts (before ++ after) := by
  rw [firstTexts, firstTexts, List.filterMap_append, List.eraseDups_append]
  exact List.prefix_append ..

theorem nodup_firstTexts (events : List Event) : (firstTexts events).Nodup := by
  induction events using List.reverseRecOn with
  | nil => exact List.nodup_nil
  | append_singleton events event ih =>
    cases event with
    | intern s =>
      rw [firstTexts_append_intern]
      split_ifs with hmem
      · exact ih
      · exact ih.append (List.nodup_singleton s) (by simpa using hmem)
    | reload =>
      rw [firstTexts_append_reload]
      exact ih

/-! ### One event -/

variable {t : Interner} {texts : List String} {before : List Event}

theorem Mirrors.size_ofTexts (h : t.Mirrors (ofTexts texts)) : t.size = texts.length := by
  rw [h.size_eq, ← Dictionary.length_texts, texts_ofTexts]

/-- Where the bytes of the texts can still be counted, a text is given its place among them. -/
theorem Mirrors.intern_next (h : t.Mirrors (ofTexts (firstTexts before))) {s : String}
    (hbytes : bytesOf (firstTexts (before ++ [.intern s])) < 2 ^ 32 - 1) :
    ∃ id t', t.intern s = .ok (id, t') ∧
      t'.Mirrors (ofTexts (firstTexts (before ++ [.intern s]))) ∧
      (firstTexts (before ++ [.intern s]))[id.toNat]? = some s := by
  have hnodup := nodup_firstTexts (before ++ [.intern s])
  have hlt := Dictionary.length_lt hnodup hbytes
  have hle := (prefix_firstTexts before [.intern s]).length_le
  have hnext : ((ofTexts (firstTexts before)).intern s).2 =
      ofTexts (firstTexts (before ++ [.intern s])) := by
    rw [Dictionary.intern_ofTexts, firstTexts_append_intern]
  have hsize : (ofTexts (firstTexts before)).size < 2 ^ 32 := by
    rw [← h.size_eq, h.size_ofTexts]
    omega
  obtain ⟨t', hintern, hmirrors⟩ := h.intern hsize fun hnew => by
    have hnot := Dictionary.lookup_eq_none_iff.mp hnew
    rw [texts_ofTexts] at hnot
    rw [firstTexts_append_intern, if_neg hnot, Dictionary.bytesOf_append_singleton] at hbytes
    rwa [Dictionary.size_data_ofTexts]
  have hget := Dictionary.get?_intern (ofTexts (firstTexts before)) s
  rw [hnext, Dictionary.get?_eq, texts_ofTexts] at hget
  have hid : ((ofTexts (firstTexts before)).intern s).1 < 2 ^ 32 :=
    (Dictionary.fst_intern_le _ s).trans_lt hsize
  refine ⟨_, t', hintern, hnext ▸ hmirrors, ?_⟩
  rw [UInt32.toNat_ofNat_of_lt' hid]
  exact hget

/-- Storing and reading give an interner for the same texts. -/
theorem Mirrors.reload (h : t.Mirrors (ofTexts texts)) (hnodup : texts.Nodup)
    (hbytes : bytesOf texts < 2 ^ 32 - 1) :
    ∃ t', parse t.encode = .ok t' ∧ t'.Mirrors (ofTexts texts) := by
  rw [h.encode_eq]
  exact exists_parse (Dictionary.decode_encode_ofTexts hnodup hbytes)

/-- After any event the interner mirrors the dictionary of the texts interned so far. -/
theorem Mirrors.apply (h : t.Mirrors (ofTexts (firstTexts before))) (event : Event)
    (hbytes : bytesOf (firstTexts (before ++ [event])) < 2 ^ 32 - 1) :
    ∃ t', event.apply t = .ok t' ∧ t'.Mirrors (ofTexts (firstTexts (before ++ [event]))) := by
  cases event with
  | intern s =>
    obtain ⟨id, t', hintern, hmirrors, -⟩ := h.intern_next hbytes
    exact ⟨t', by rw [Event.apply, hintern]; rfl, hmirrors⟩
  | reload =>
    rw [firstTexts_append_reload] at hbytes ⊢
    exact h.reload (nodup_firstTexts before) hbytes

/-! ### Texts by id -/

/-- The ids of an interner are those of the given texts in their order, and looking up, resolving
    and interning agree on them. -/
structure Lists (t : Interner) (texts : List String) : Prop where
  /-- There are as many ids as texts, and 32 bits count them. -/
  size_eq : t.size = texts.length
  size_lt : t.size < 2 ^ 32
  /-- The run of bytes has the texts and nothing else. -/
  data_size : t.data.size = (texts.map String.utf8ByteSize).sum
  get?_eq : ∀ id : UInt32, t.get? id = texts[id.toNat]?
  evaluate_eq : ∀ f, (t.evaluate f).toList = texts.map f
  /-- Looking up in the map and cutting out of the bytes undo one another. -/
  lookup_iff : ∀ s id, t.lookup s = some id ↔ t.get? id = some s
  /-- A text that is known has its id, and nothing changes. -/
  intern_known : ∀ s id, t.lookup s = some id → t.intern s = .ok (id, t)
  /-- Any other text gets the next id, if the bytes are as few as is asserted, and no id changes its
      text. -/
  intern_new : ∀ s, t.lookup s = none → t.data.size + s.utf8ByteSize < 2 ^ 32 - 1 →
    ∃ t', t.intern s = .ok (.ofNat t.size, t') ∧ t'.size = t.size + 1 ∧
      t'.get? (.ofNat t.size) = some s ∧ t'.lookup s = some (.ofNat t.size) ∧
      ∀ id : UInt32, id.toNat < t.size → t'.get? id = t.get? id

theorem Mirrors.lists (h : t.Mirrors (ofTexts texts)) (hnodup : texts.Nodup)
    (hbytes : bytesOf texts < 2 ^ 32 - 1) : t.Lists texts where
  size_eq := h.size_ofTexts
  size_lt := h.size_ofTexts ▸ Dictionary.length_lt hnodup hbytes
  data_size := (congrArg Array.size h.data).trans (Dictionary.size_data_ofTexts texts)
  get?_eq id := by rw [h.get?_eq, Dictionary.get?_eq, texts_ofTexts]
  evaluate_eq f := by
    have hsize : (ofTexts texts).size < 2 ^ 32 := by
      rw [← h.size_eq, h.size_ofTexts]
      exact Dictionary.length_lt hnodup hbytes
    have htexts := congrArg (List.map f) (texts_ofTexts texts)
    rw [Dictionary.texts, List.map_map] at htexts
    rw [h.evaluate_eq hsize, Dictionary.evaluate, Array.toList_map]
    exact htexts
  lookup_iff s id := by
    have hfaithful : (ofTexts texts).Faithful :=
      Dictionary.faithful_iff.mpr ((texts_ofTexts texts).symm ▸ hnodup)
    rw [h.get?_eq, ← hfaithful.lookup_eq_some_iff, ← h.lookup, Option.map_eq_some_iff]
    constructor
    · exact fun hid => ⟨id, hid, rfl⟩
    · rintro ⟨found, hfound, heq⟩
      rw [hfound, UInt32.toNat_inj.mp heq]
  intern_known s id hid := by rw [Interner.intern, hid]
  intern_new s hnew hroom := by
    have hlt := Dictionary.length_lt hnodup hbytes
    have hnone : (ofTexts texts).lookup s = none := by rw [← h.lookup, hnew, Option.map_none]
    have hsize : (ofTexts texts).size = t.size := h.size_eq.symm
    have hsizeLt : t.size < 2 ^ 32 := h.size_ofTexts ▸ hlt
    rw [h.data] at hroom
    have hpush : (t.push s).Mirrors ((ofTexts texts).push s) := h.push (hsize ▸ hsizeLt) (by omega)
    have hid : (UInt32.ofNat t.size).toNat = t.size := UInt32.toNat_ofNat_of_lt' hsizeLt
    refine ⟨t.push s, ?_, Array.size_push .., ?_, ?_, fun id hlt => ?_⟩
    · rw [h.intern_of_new hnone, if_pos hroom, hsize]
    · rw [hpush.get?_eq, Dictionary.get?_push, hid, if_pos hsize.symm]
    · rw [hpush.lookup_eq, Dictionary.lookup_push, if_pos rfl, hsize, Option.map_some]
    · rw [hpush.get?_eq, h.get?_eq, Dictionary.get?_push, if_neg (hsize ▸ Nat.ne_of_lt hlt)]

end Interner

/-! ## Cells along a history -/

/-- A column with the interner that it has if it is for texts. -/
structure InternedColumn extends Column where
  interner : Option Interner

namespace InternedColumn

open Interner (Event firstTexts prefix_firstTexts)
open Dictionary (bytesOf bytesOf_mono ofTexts)

/-- A column that has stored nothing (`new`). -/
def new (column : Column) : InternedColumn :=
  ⟨column, if column.kind = .enum then some .empty else none⟩

/-- The id of a text; 0 if the column is not for texts (`intern`). -/
def intern (column : InternedColumn) (s : String) : Checked (UInt32 × InternedColumn) :=
  match column.interner with
  | some t => do
    let (id, t) ← t.intern s
    pure (id, { column with interner := some t })
  | none => pure (0, column)

/-- The text of an id (`resolve`). -/
def resolve (column : InternedColumn) (id : UInt32) : Option String :=
  column.interner.bind fun t => t.get? id

/-- The cell that stores the value, none for `null`, and the column then (`encode`). -/
def encode (column : InternedColumn) (value : Value) :
    Checked (Except Error (Option Cell) × InternedColumn) :=
  match column.kind, value with
  | _, .null => pure (.ok none, column)
  | .float64, .float64 x => pure (.ok (some (.float64 x)), column)
  | .bool, .bool b => pure (.ok (some (.bool b)), column)
  | .enum, .string s => do
    let (id, column) ← column.intern s
    pure (.ok (some (.enum id.toNat)), column)
  | .any, v => pure (.ok (some (.any v)), column)
  | _, _ => pure (.error (column.mismatch value), column)

/-- The value that a cell stores; `null` for an id without a text (`decode`). -/
def decode (column : InternedColumn) : Cell → Value
  | .float64 x => .float64 x
  | .bool b => .bool b
  | .enum id =>
    match column.resolve (.ofNat id) with
    | some s => .string s
    | none => .null
  | .any v => v

/-- The column with the interner that is read of its stored form. -/
def reload (column : InternedColumn) : Checked InternedColumn :=
  match column.interner with
  | some t => do
    let t ← Interner.parse t.encode
    pure { column with interner := some t }
  | none => pure column

/-! ### A column with its interner and with its dictionary -/

/-- The interner of a column for texts mirrors the dictionary that goes with the column. A column of
    another kind has no interner, and the dictionary has nothing. -/
inductive Mirrors : InternedColumn → Dictionary → Prop where
  | texts {column : Column} {t : Interner} {d : Dictionary} (hkind : column.kind = .enum)
      (h : t.Mirrors d) : Mirrors ⟨column, some t⟩ d
  | other {column : Column} (hkind : column.kind ≠ .enum) : Mirrors ⟨column, none⟩ .empty

theorem mirrors_new (column : Column) : (new column).Mirrors .empty := by
  rw [new]
  split_ifs with hkind
  · exact .texts hkind Interner.mirrors_empty
  · exact .other hkind

variable {column : InternedColumn} {d : Dictionary}

/-- A value is encoded as the same cell, or refused with the same error, and the interner then
    mirrors the dictionary then. -/
theorem Mirrors.encode (h : column.Mirrors d) {value : Value} (hsize : d.size < 2 ^ 32)
    (hbytes : ∀ s, column.kind = .enum → value = .string s → d.lookup s = none →
      d.data.size + s.utf8ByteSize < 2 ^ 32 - 1) :
    ∃ column' : InternedColumn,
      column.encode value = .ok ((column.toColumn.encode d value).1, column') ∧
      column'.toColumn = column.toColumn ∧
      column'.Mirrors (column.toColumn.encode d value).2 := by
  cases h with
  | @texts column t d hkind h =>
    obtain ⟨name, kind⟩ := column
    subst hkind
    cases value with
    | string s =>
      obtain ⟨t', hintern, hmirrors⟩ := h.intern hsize (hbytes s rfl rfl)
      have hid : (d.intern s).1 < 2 ^ 32 := (Dictionary.fst_intern_le d s).trans_lt hsize
      refine ⟨⟨⟨name, .enum⟩, some t'⟩, ?_, rfl, .texts rfl hmirrors⟩
      simp only [InternedColumn.encode, InternedColumn.intern, hintern, Checked.ok_bind, pure_bind,
        UInt32.toNat_ofNat_of_lt' hid]
      rfl
    | _ => exact ⟨_, rfl, rfl, .texts rfl h⟩
  | @other column hkind =>
    obtain ⟨name, kind⟩ := column
    cases kind with
    | enum => exact absurd rfl hkind
    | _ => cases value <;> exact ⟨_, rfl, rfl, .other hkind⟩

/-- A cell decodes to the same value. Ids are numbers of 32 bits. -/
theorem Mirrors.decode_eq (h : column.Mirrors d) {cell : Cell}
    (hid : ∀ id, cell = .enum id → id < 2 ^ 32) : column.decode cell = Column.decode d cell := by
  cases cell with
  | enum id =>
    have hresolve : column.resolve (.ofNat id) = d.get? id := by
      cases h with
      | texts hkind h =>
        rw [resolve, Option.bind_some, h.get?_eq, UInt32.toNat_ofNat_of_lt' (hid id rfl)]
      | other hkind => rfl
    rw [InternedColumn.decode, hresolve]
    rfl
  | _ => rfl

/-- The texts that events intern, with what the column encodes each as at that moment, and the
    column at the end. -/
def encodings (column : InternedColumn) :
    List Event → Checked (List (String × Except Error (Option Cell)) × InternedColumn)
  | [] => pure ([], column)
  | .intern s :: events => do
    let (cell, column) ← column.encode (.string s)
    let (rest, column) ← encodings column events
    pure ((s, cell) :: rest, column)
  | .reload :: events => do
    let column ← column.reload
    encodings column events

/-- Along a history the column has the interner that goes through the same events, and each text is
    encoded as its place among the texts interned so far. -/
theorem encodings_eq {column : Column} (hkind : column.kind = .enum) {before : List Event}
    {t : Interner} (h : t.Mirrors (ofTexts (firstTexts before))) (events : List Event)
    (hbytes : bytesOf (firstTexts (before ++ events)) < 2 ^ 32 - 1) :
    ∃ t' encoded, t.run events = .ok t' ∧
      encodings ⟨column, some t⟩ events = .ok (encoded, ⟨column, some t'⟩) ∧
      t'.Mirrors (ofTexts (firstTexts (before ++ events))) ∧
      encoded.map Prod.fst = events.filterMap Event.text? ∧
      ∀ entry ∈ encoded, ∃ id : UInt32, entry.2 = .ok (some (.enum id.toNat)) ∧
        (firstTexts (before ++ events))[id.toNat]? = some entry.1 := by
  induction events generalizing before t with
  | nil =>
    rw [List.append_nil]
    exact ⟨t, [], rfl, rfl, h, rfl, fun entry hentry => by cases hentry⟩
  | cons event events ih =>
    rw [List.append_cons] at hbytes ⊢
    have hprefix := prefix_firstTexts (before ++ [event]) events
    have hnext := (bytesOf_mono hprefix).trans_lt hbytes
    cases event with
    | intern s =>
      obtain ⟨id, t₁, hintern, hmirrors, hid⟩ := h.intern_next hnext
      obtain ⟨t', rest, hrun, hencodings, hmirrors', htexts, hids⟩ := ih hmirrors hbytes
      refine ⟨t', (s, .ok (some (.enum id.toNat))) :: rest, ?_, ?_, hmirrors', ?_, ?_⟩
      · rw [Interner.run_cons, Event.apply, hintern]
        exact hrun
      · obtain ⟨name, kind⟩ := column
        subst hkind
        simp only [encodings, encode, intern, hintern, Checked.ok_bind, pure_bind, hencodings]
        rfl
      · rw [List.map_cons, htexts]
        rfl
      · refine List.forall_mem_cons.mpr ⟨⟨id, rfl, ?_⟩, hids⟩
        obtain ⟨hlt, heq⟩ := List.getElem?_eq_some_iff.mp hid
        rw [List.prefix_iff_getElem?.mp hprefix _ hlt, heq]
    | reload =>
      obtain ⟨t₁, happly, hmirrors⟩ := h.apply .reload hnext
      obtain ⟨t', encoded, hrun, hencodings, hrest⟩ := ih hmirrors hbytes
      refine ⟨t', encoded, ?_, ?_, hrest⟩
      · rw [Interner.run_cons, happly]
        exact hrun
      · rw [Event.apply] at happly
        simp only [encodings, reload, happly, Checked.ok_bind, pure_bind, hencodings]

end InternedColumn

namespace Interner

/-- An interner that starts empty, interns texts and is stored and read any number of times, where
    the different texts together are shorter than 32 bits can count. No assertion fails and no
    reading does. The ids are those of the different texts in the order in which these first came;
    the map, the places and the bytes agree on them. A column of texts that goes through the same
    encodes equal texts, at whatever moments, as equal cells and others as others, and at the end
    every cell it ever gave still decodes to its text. -/
theorem intern_in_order (column : Column) (hkind : column.kind = .enum) (events : List Event)
    (hbytes : ((firstTexts events).map String.utf8ByteSize).sum < 2 ^ 32 - 1) :
    ∃ t encoded, empty.run events = .ok t ∧ t.Lists (firstTexts events) ∧
      (InternedColumn.new column).encodings events = .ok (encoded, ⟨column, some t⟩) ∧
      encoded.map Prod.fst = events.filterMap Event.text? ∧
      (∀ entry ∈ encoded, ∃ cell, entry.2 = .ok (some cell) ∧
        InternedColumn.decode ⟨column, some t⟩ cell = .string entry.1) ∧
      ∀ a ∈ encoded, ∀ b ∈ encoded, a.2 = b.2 ↔ a.1 = b.1 := by
  have hnodup := nodup_firstTexts events
  have hnew : InternedColumn.new column = ⟨column, some .empty⟩ := by
    rw [InternedColumn.new, if_pos hkind]
  obtain ⟨t, encoded, hrun, hencodings, hmirrors, htexts, hids⟩ :=
    @InternedColumn.encodings_eq column hkind [] empty mirrors_empty events hbytes
  have hlists : t.Lists (firstTexts events) := hmirrors.lists hnodup hbytes
  refine ⟨t, encoded, hrun, hlists, hnew ▸ hencodings, htexts, fun entry hentry => ?_,
    fun a ha b hb => ?_⟩
  · obtain ⟨id, hcell, htext⟩ := hids entry hentry
    have hget : t.get? id = some entry.1 := (hlists.get?_eq id).trans htext
    refine ⟨.enum id.toNat, hcell, ?_⟩
    simp only [InternedColumn.decode, InternedColumn.resolve, UInt32.ofNat_toNat, Option.bind_some,
      hget]
  · obtain ⟨i, hi, hiText⟩ := hids a ha
    obtain ⟨j, hj, hjText⟩ := hids b hb
    obtain ⟨hiLt, -⟩ := List.getElem?_eq_some_iff.mp hiText
    rw [List.nil_append] at hiText hjText hiLt
    rw [hi, hj, ← Option.some.injEq (a.1), ← hiText, ← hjText, List.getElem?_inj hiLt hnodup]
    simp

/-- An empty text, one of two bytes that comes back after a reload, and one after another. -/
theorem intern_in_order_reloaded :
    let events : List Event :=
      [.intern "", .intern "é", .reload, .intern "é", .reload, .intern "ab"]
    ∃ t encoded, empty.run events = .ok t ∧ t.size = 3 ∧ t.lookup "é" = some 1 ∧
      t.lookup "ab" = some 2 ∧
      (InternedColumn.new ⟨"race", .enum⟩).encodings events =
        .ok (encoded, ⟨⟨"race", .enum⟩, some t⟩) ∧
      encoded.map Prod.fst = ["", "é", "é", "ab"] ∧
      ∀ a ∈ encoded, ∀ b ∈ encoded, a.2 = b.2 ↔ a.1 = b.1 := by
  intro events
  have hfirst : firstTexts events = ["", "é", "ab"] := by decide
  have hbytes : ((firstTexts events).map String.utf8ByteSize).sum < 2 ^ 32 - 1 := by
    rw [hfirst]
    cbv
  obtain ⟨t, encoded, hrun, hlists, hencodings, htexts, -, hcells⟩ :=
    intern_in_order ⟨"race", .enum⟩ rfl events hbytes
  rw [hfirst] at hlists
  exact ⟨t, encoded, hrun, hlists.size_eq, (hlists.lookup_iff _ _).mpr (hlists.get?_eq 1),
    (hlists.lookup_iff _ _).mpr (hlists.get?_eq 2), hencodings, htexts, hcells⟩

end Interner

end ColumnStore
