import ColumnStore.Proofs.Canonical

/-!
# Ids and texts

Rows are compared by the ids of their texts, so a text must have one id. A dictionary that interns
its own texts looks each one up first and never gives it a second id. One that is read from bytes
takes its entries as they come: two of them may spell the same text, and then only the greater id is
found by looking up.

* `lookup_eq_some_iff`: what looking up finds, of any dictionary;
* `faithful_iff`: ids and texts belong to one another if no text repeats;
* `decode_faithful_iff`: of dictionaries that are read, those do so and keep doing so whose entries
  spell different runs of bytes, and no others; `not_faithful_repeated` is one that does not.
-/

namespace ColumnStore

namespace Dictionary

variable {d : Dictionary}

/-! ## The texts of a dictionary -/

/-- The texts by id. -/
def texts (d : Dictionary) : List String := d.entries.toList.map Entry.text

theorem get?_eq (d : Dictionary) (id : Nat) : d.get? id = d.texts[id]? := by
  rw [get?, texts, List.getElem?_map, Array.getElem?_toList]

@[simp] theorem length_texts (d : Dictionary) : d.texts.length = d.size := by
  rw [texts, List.length_map, Array.length_toList, size]

theorem mem_texts {s : String} : s ∈ d.texts ↔ ∃ id, d.get? id = some s := by
  rw [List.mem_iff_getElem?]
  simp only [get?_eq]

@[simp] theorem texts_push (d : Dictionary) (s : String) : (d.push s).texts = d.texts ++ [s] := by
  rw [texts, push, Array.toList_push, List.map_append]
  rfl

/-! ## Looking up -/

theorem le_of_lookupBelow {entries : Array Entry} {s : String} {n id : Nat}
    (h : lookupBelow entries s n = some id) {other : Nat} (hlt : other < n)
    (hother : entries[other]?.map Entry.text = some s) : other ≤ id := by
  induction n with
  | zero => omega
  | succ n ih =>
    obtain ⟨entry, hentry, htext⟩ := Option.map_eq_some_iff.mp hother
    rw [lookupBelow] at h
    by_cases hlast : other = n
    · rw [← hlast, hentry] at h
      simp only [htext, if_true, Option.some.injEq] at h
      omega
    · have hbelow : other < n := by omega
      cases hfound : entries[n]? with
      | none =>
        rw [hfound] at h
        exact ih h hbelow
      | some last =>
        rw [hfound] at h
        simp only at h
        split_ifs at h
        · obtain rfl := Option.some.inj h
          omega
        · exact ih h hbelow

theorem exists_lookup_of_mem {s : String} (h : s ∈ d.texts) : ∃ id, d.lookup s = some id := by
  obtain ⟨id, hid⟩ := mem_texts.mp h
  cases hlookup : d.lookup s with
  | none => exact absurd hid ((lookupBelow_spec d.entries s d.size).2 hlookup id (get?_lt_size hid))
  | some found => exact ⟨found, rfl⟩

/-- Looking a text up finds the greatest of its ids. -/
theorem lookup_eq_some_iff {s : String} {id : Nat} :
    d.lookup s = some id ↔ d.get? id = some s ∧ ∀ other, d.get? other = some s → other ≤ id := by
  constructor
  · intro h
    exact ⟨get?_of_lookup h, fun other hother => le_of_lookupBelow h (get?_lt_size hother) hother⟩
  · rintro ⟨hget, hgreatest⟩
    obtain ⟨found, hlookup⟩ := exists_lookup_of_mem (mem_texts.mpr ⟨id, hget⟩)
    have hle := hgreatest found (get?_of_lookup hlookup)
    have hge := le_of_lookupBelow hlookup (get?_lt_size hget) hget
    rw [hlookup, Nat.le_antisymm hle hge]

theorem lookup_eq_none_iff {s : String} : d.lookup s = none ↔ s ∉ d.texts := by
  constructor
  · intro hnone hmem
    obtain ⟨id, hlookup⟩ := exists_lookup_of_mem hmem
    rw [hnone] at hlookup
    cases hlookup
  · intro hnot
    cases hlookup : d.lookup s with
    | none => rfl
    | some id => exact absurd (mem_texts.mpr ⟨id, get?_of_lookup hlookup⟩) hnot

theorem intern_of_lookup {s : String} {id : Nat} (h : d.lookup s = some id) :
    d.intern s = (id, d) := by
  rw [intern, h]

theorem intern_of_not_mem {s : String} (h : s ∉ d.texts) : d.intern s = (d.size, d.push s) := by
  rw [intern, lookup_eq_none_iff.mpr h]

/-- Interning adds a text at the end unless it is there. -/
theorem texts_intern (d : Dictionary) (s : String) :
    (d.intern s).2.texts = if s ∈ d.texts then d.texts else d.texts ++ [s] := by
  cases hlookup : d.lookup s with
  | none =>
    have hnot := lookup_eq_none_iff.mp hlookup
    rw [intern_of_not_mem hnot, if_neg hnot, texts_push]
  | some id => rw [intern_of_lookup hlookup, if_pos (mem_texts.mpr ⟨id, get?_of_lookup hlookup⟩)]

/-! ## One id for one text -/

/-- Ids and texts belong to one another: two ids have two texts, and every id has a text that is
    looked up as that id. -/
structure Faithful (d : Dictionary) : Prop where
  get?_ne : ∀ id < d.size, ∀ other < d.size, id ≠ other → d.get? id ≠ d.get? other
  lookup_get? : ∀ id < d.size, ∃ s, d.get? id = some s ∧ d.lookup s = some id

theorem faithful_iff : d.Faithful ↔ d.texts.Nodup := by
  constructor
  · intro h
    rw [List.nodup_iff_getElem?_ne_getElem?]
    intro i j hij hj
    rw [length_texts] at hj
    rw [← get?_eq, ← get?_eq]
    exact h.get?_ne i (by omega) j hj (Nat.ne_of_lt hij)
  · intro h
    have hinj : ∀ id < d.size, ∀ other, d.get? id = d.get? other → id = other := by
      intro id hid other heq
      rw [get?_eq, get?_eq] at heq
      exact (List.getElem?_inj (by rwa [length_texts]) h).mp heq
    refine ⟨fun id hid other _ hne heq => hne (hinj id hid other heq), fun id hid => ?_⟩
    obtain ⟨s, hs⟩ := Option.isSome_iff_exists.mp (get?_isSome_iff.mpr hid)
    refine ⟨s, hs, lookup_eq_some_iff.mpr ⟨hs, fun other hother => ?_⟩⟩
    exact (hinj id hid other (hs.trans hother.symm)).ge

/-- Looking up and resolving undo one another. -/
theorem Faithful.lookup_eq_some_iff (h : d.Faithful) {s : String} {id : Nat} :
    d.lookup s = some id ↔ d.get? id = some s := by
  refine ⟨get?_of_lookup, fun hget => ?_⟩
  obtain ⟨t, ht, hlookup⟩ := h.lookup_get? id (get?_lt_size hget)
  obtain rfl := Option.some.inj (ht.symm.trans hget)
  exact hlookup

/-- The dictionary after interning texts in order. -/
def internAll (d : Dictionary) (more : List String) : Dictionary :=
  more.foldl (fun d s => (d.intern s).2) d

/-- Interning repeats no text. -/
theorem nodup_texts_intern (d : Dictionary) (s : String) :
    (d.intern s).2.texts.Nodup ↔ d.texts.Nodup := by
  rw [texts_intern]
  split_ifs with hmem
  · rfl
  · rw [List.nodup_append_comm, List.singleton_append, List.nodup_cons]
    exact and_iff_right hmem

theorem nodup_texts_internAll (d : Dictionary) (more : List String) :
    (d.internAll more).texts.Nodup ↔ d.texts.Nodup := by
  induction more generalizing d with
  | nil => rfl
  | cons s rest ih => exact (ih (d.intern s).2).trans (nodup_texts_intern d s)

/-! ## Dictionaries read from bytes -/

/-- The bytes of the run that an entry points to. -/
def spelling (d : Dictionary) (entry : Entry) : Array UInt8 :=
  d.data.extract entry.offset (entry.offset + entry.length)

theorem WellFormed.spelling_eq (h : d.WellFormed) {entry : Entry} (hmem : entry ∈ d.entries) :
    d.spelling entry = entry.text.toByteArray.data := by
  obtain ⟨-, htext⟩ := entryAt_eq_ok_iff.mp (h entry hmem)
  rw [toByteArray_of_fromUTF8? htext]
  rfl

/-- Entries that spell alike have the same text. -/
theorem WellFormed.nodup_spellings (h : d.WellFormed) :
    (d.entries.toList.map d.spelling).Nodup ↔ d.texts.Nodup := by
  have hspell : d.entries.toList.map d.spelling = d.texts.map fun s => s.toByteArray.data := by
    rw [texts, List.map_map]
    exact List.map_congr_left fun entry hmem => h.spelling_eq (Array.mem_toList_iff.mp hmem)
  have hinjective : Function.Injective fun s : String => s.toByteArray.data := by
    intro s t heq
    exact String.toByteArray_inj.mp (ByteArray.ext heq)
  rw [hspell, List.nodup_map_iff hinjective]

/-- A dictionary that is read from any bytes finds the greatest id of a text by looking up. Its ids
    and texts belong to one another, whatever is interned afterwards, if and only if its entries
    spell different bytes. -/
theorem decode_faithful_iff {bytes : Bytes} (h : decode bytes = .ok d) :
    (∀ s id, d.lookup s = some id ↔
      d.get? id = some s ∧ ∀ other, d.get? other = some s → other ≤ id) ∧
    ∀ more, (d.internAll more).Faithful ↔ (d.entries.toList.map d.spelling).Nodup := by
  have hwf := (Reached.decode h).wellFormed
  refine ⟨fun s id => lookup_eq_some_iff, fun more => ?_⟩
  rw [hwf.nodup_spellings, faithful_iff, nodup_texts_internAll]

/-- Entries that overlap spell different texts, and a text that comes back has its old id. -/
theorem decode_faithful_overlapping :
    let bytes : Bytes :=
      [2, 0, 0, 0, 2, 0, 0, 0, 0, 0, 0, 0, 2, 0, 0, 0, 1, 0, 0, 0, 1, 0, 0, 0, 97, 98]
    let d : Dictionary := ⟨#[97, 98], #[⟨0, 2, "ab"⟩, ⟨1, 1, "b"⟩]⟩
    decode bytes = .ok d ∧ (d.internAll ["c", "b"]).Faithful ∧
      (d.internAll ["c", "b"]).texts = ["ab", "b", "c"] := by
  intro bytes d
  have hdecode : decode bytes = .ok d := by cbv
  exact ⟨hdecode, ((decode_faithful_iff hdecode).2 _).mpr (by decide), by cbv⟩

/-- Two entries for one text are accepted: both ids stand for it and the greater one is found. -/
theorem not_faithful_repeated :
    let bytes : Bytes :=
      [2, 0, 0, 0, 2, 0, 0, 0, 0, 0, 0, 0, 1, 0, 0, 0, 1, 0, 0, 0, 1, 0, 0, 0, 97, 97]
    ∃ d, decode bytes = .ok d ∧ d.get? 0 = some "a" ∧ d.get? 1 = some "a" ∧
      d.lookup "a" = some 1 ∧ ¬d.Faithful := by
  intro bytes
  refine ⟨⟨#[97, 97], #[⟨0, 1, "a"⟩, ⟨1, 1, "a"⟩]⟩, by cbv, by cbv, by cbv, by cbv, fun h => ?_⟩
  exact h.get?_ne 0 (by decide) 1 (by decide) (by decide) (by cbv)

end Dictionary

end ColumnStore
