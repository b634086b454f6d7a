import ColumnStore.Proofs.Bytes
import ColumnStore.Proofs.Entries
import ColumnStore.Value.Codec

/-!
# Stored values read back

`decode?_encode`: a value whose maps are in key order (`Canonical`) is read back from its stored
form. Lengths and counts take eight bytes, which is enough for any value stored in fewer than `2 ^
64`.

`of_decode?`: a value that is decoded is canonical, and its stored form is no longer than the bytes
it was decoded from, which may be in another order, have keys twice or go on after the value.
-/

namespace ColumnStore

namespace Value

mutual

/-- The entries of every map inside are in key order, one per key. -/
def Canonical : Value → Prop
  | list items => CanonicalItems items
  | map entries => (entries.map Prod.fst).Pairwise (· < ·) ∧ CanonicalEntries entries
  | _ => True

/-- All items are canonical. -/
def CanonicalItems : List Value → Prop
  | [] => True
  | v :: rest => Canonical v ∧ CanonicalItems rest

/-- The values of all entries are canonical. -/
def CanonicalEntries : List (String × Value) → Prop
  | [] => True
  | (_, v) :: rest => Canonical v ∧ CanonicalEntries rest

end

/-! ## Lengths -/

theorem four_le_length_encode (v : Value) : 4 ≤ v.encode.length := by
  cases v <;> simp only [encode, List.length_append, Bytes.length_ofNat] <;> omega

theorem length_le_encodeItems (items : List Value) :
    items.length ≤ (encodeItems items).length := by
  induction items with
  | nil => exact Nat.zero_le _
  | cons v rest ih =>
    have := four_le_length_encode v
    rw [encodeItems, List.length_append, List.length_cons]
    omega

theorem length_le_encodeEntries (entries : List (String × Value)) :
    entries.length ≤ (encodeEntries entries).length := by
  induction entries with
  | nil => exact Nat.zero_le _
  | cons entry rest ih =>
    obtain ⟨k, v⟩ := entry
    have := four_le_length_encode v
    rw [encodeEntries, List.length_append, List.length_append, List.length_cons]
    omega

/-! ## Reading back -/

theorem readNat_ofNat {width n : Nat} (h : n < 256 ^ width) (rest : Bytes) :
    readNat width (Bytes.ofNat width n ++ rest) = some (n, rest) := by
  rw [readNat, Bytes.splitAt?_append (Bytes.length_ofNat width n), Option.map_some]
  simp only [Bytes.toNat_ofNat h]

theorem readString_ofString {s : String} (h : s.utf8ByteSize < 2 ^ 64) (rest : Bytes) :
    readString (Bytes.ofString 8 s ++ rest) = some (s, rest) := by
  unfold readString Bytes.ofString
  rw [List.append_assoc, readNat_ofNat (by omega)]
  simp only [Option.bind_eq_bind, Option.bind_some]
  rw [Bytes.splitAt?_append (Bytes.length_toUTF8 s)]
  simp only [Option.bind_some, Bytes.toString?_toUTF8]
  rfl

mutual

/-- A value is read back, whatever follows it, with as much fuel as it has bytes. -/
theorem read_encode (v : Value) (hc : v.Canonical) {fuel : Nat} (hfuel : v.encode.length ≤ fuel)
    (hlen : v.encode.length < 2 ^ 64) (rest : Bytes) :
    read fuel (v.encode ++ rest) = some (v, rest) := by
  have hpos := four_le_length_encode v
  obtain ⟨fuel, rfl⟩ : ∃ n, fuel = n + 1 := ⟨fuel - 1, by omega⟩
  cases v with
  | null =>
    rw [encode, read, readNat_ofNat (by omega)]
    rfl
  | bool b =>
    rw [encode, List.append_assoc, read, readNat_ofNat (by omega)]
    cases b <;> rfl
  | float64 x =>
    have hbits : x.bits.toNat < 256 ^ 8 := x.bits.toNat_lt
    rw [encode, List.append_assoc, read, readNat_ofNat (by omega)]
    simp only [Option.bind_eq_bind, Option.bind_some]
    rw [readNat_ofNat hbits, Option.bind_some, UInt64.ofNat_toNat]
    rfl
  | string s =>
    rw [encode, List.length_append, Bytes.length_ofString] at hlen
    rw [encode, List.append_assoc, read, readNat_ofNat (by omega)]
    simp only [Option.bind_eq_bind, Option.bind_some]
    rw [readString_ofString (by omega)]
    rfl
  | list items =>
    have hcount := length_le_encodeItems items
    rw [encode, List.length_append, List.length_append, Bytes.length_ofNat,
      Bytes.length_ofNat] at hlen hfuel
    rw [encode, List.append_assoc, List.append_assoc, read, readNat_ofNat (by omega)]
    simp only [Option.bind_eq_bind, Option.bind_some]
    rw [readNat_ofNat (by omega), Option.bind_some,
      readItems_encodeItems items hc (by omega) (by omega), Option.bind_some]
    rfl
  | map entries =>
    have hcount := length_le_encodeEntries entries
    rw [encode, List.length_append, List.length_append, Bytes.length_ofNat,
      Bytes.length_ofNat] at hlen hfuel
    rw [encode, List.append_assoc, List.append_assoc, read, readNat_ofNat (by omega)]
    simp only [Option.bind_eq_bind, Option.bind_some]
    rw [readNat_ofNat (by omega), Option.bind_some,
      readEntries_encodeEntries entries hc.2 (by omega) (by omega), Option.bind_some]
    simp only [Entries.ofList_of_pairwise hc.1]
    rfl

/-- Items are read back; one step of fuel more than they have bytes is enough. -/
theorem readItems_encodeItems (items : List Value) (hc : CanonicalItems items) {fuel : Nat}
    (hfuel : (encodeItems items).length + 1 ≤ fuel) (hlen : (encodeItems items).length < 2 ^ 64)
    (rest : Bytes) :
    readItems fuel items.length (encodeItems items ++ rest) = some (items, rest) := by
  obtain ⟨fuel, rfl⟩ : ∃ n, fuel = n + 1 := ⟨fuel - 1, by omega⟩
  cases items with
  | nil => rfl
  | cons v others =>
    have hpos := four_le_length_encode v
    rw [encodeItems, List.length_append] at hfuel hlen
    rw [encodeItems, List.append_assoc, List.length_cons, readItems,
      read_encode v hc.1 (by omega) (by omega)]
    simp only [Option.bind_eq_bind, Option.bind_some]
    rw [readItems_encodeItems others hc.2 (by omega) (by omega)]
    rfl

/-- Entries are read back. -/
theorem readEntries_encodeEntries (entries : List (String × Value))
    (hc : CanonicalEntries entries) {fuel : Nat}
    (hfuel : (encodeEntries entries).length + 1 ≤ fuel)
    (hlen : (encodeEntries entries).length < 2 ^ 64) (rest : Bytes) :
    readEntries fuel entries.length (encodeEntries entries ++ rest) = some (entries, rest) := by
  obtain ⟨fuel, rfl⟩ : ∃ n, fuel = n + 1 := ⟨fuel - 1, by omega⟩
  cases entries with
  | nil => rfl
  | cons entry others =>
    obtain ⟨k, v⟩ := entry
    have hpos := four_le_length_encode v
    rw [encodeEntries, List.length_append, List.length_append, Bytes.length_ofString] at hfuel hlen
    rw [encodeEntries, List.append_assoc, List.append_assoc, List.length_cons, readEntries,
      readString_ofString (by omega)]
    simp only [Option.bind_eq_bind, Option.bind_some]
    rw [read_encode v hc.1 (by omega) (by omega)]
    simp only [Option.bind_some]
    rw [readEntries_encodeEntries others hc.2 (by omega) (by omega)]
    rfl

end

/-- The stored form of a value decodes to the value. -/
theorem decode?_encode {v : Value} (hc : v.Canonical) (hlen : v.encode.length < 2 ^ 64) :
    decode? v.encode = some v := by
  have hread := read_encode v hc le_rfl hlen []
  rw [List.append_nil] at hread
  rw [decode?, hread, Option.map_some]

/-! ## Values that were read -/

theorem canonicalEntries_iff {entries : List (String × Value)} :
    CanonicalEntries entries ↔ ∀ entry ∈ entries, entry.2.Canonical := by
  induction entries with
  | nil => simp [CanonicalEntries]
  | cons entry rest ih => rw [CanonicalEntries, List.forall_mem_cons, ih]

theorem length_encodeEntries (entries : List (String × Value)) :
    (encodeEntries entries).length =
      (entries.map fun entry => (Bytes.ofString 8 entry.1 ++ entry.2.encode).length).sum := by
  induction entries with
  | nil => rfl
  | cons entry rest ih =>
    rw [encodeEntries, List.length_append, ih, List.map_cons, List.sum_cons]

theorem of_readNat {width n : Nat} {bytes rest : Bytes} (h : readNat width bytes = some (n, rest)) :
    width + rest.length = bytes.length := by
  obtain ⟨⟨front, back⟩, hsplit, heq⟩ := Option.map_eq_some_iff.mp h
  cases heq
  exact (Bytes.of_splitAt? hsplit).2

theorem of_readString {s : String} {bytes rest : Bytes} (h : readString bytes = some (s, rest)) :
    8 + s.utf8ByteSize + rest.length = bytes.length := by
  obtain ⟨⟨length, body⟩, hlength, h⟩ := Option.bind_eq_some_iff.mp h
  obtain ⟨⟨front, back⟩, hsplit, h⟩ := Option.bind_eq_some_iff.mp h
  obtain ⟨found, hfound, h⟩ := Option.bind_eq_some_iff.mp h
  cases h
  have hcount := of_readNat hlength
  have hfront := Bytes.of_splitAt? hsplit
  have hsize := Bytes.utf8ByteSize_of_toString? hfound
  omega

mutual

/-- A value that was read is canonical, and its stored form is no longer than what was read. -/
theorem of_read {fuel : Nat} {bytes rest : Bytes} {v : Value}
    (h : read fuel bytes = some (v, rest)) :
    v.Canonical ∧ v.encode.length + rest.length ≤ bytes.length := by
  match fuel with
  | 0 => rw [read] at h; cases h
  | fuel + 1 =>
    rw [read] at h
    obtain ⟨⟨tag, body⟩, htag, h⟩ := Option.bind_eq_some_iff.mp h
    have hlength := of_readNat htag
    simp only at h
    split at h
    · cases h
      exact ⟨trivial, hlength.le⟩
    · split at h
      · rename_i b left
        have hbool : ∃ value, v = bool value ∧ rest = left := by
          split_ifs at h <;> cases h <;> exact ⟨_, rfl, rfl⟩
        obtain ⟨value, rfl, rfl⟩ := hbool
        refine ⟨trivial, ?_⟩
        rw [List.length_cons] at hlength
        simp only [encode, List.length_append, Bytes.length_ofNat, List.length_singleton]
        omega
      · cases h
    · obtain ⟨⟨bits, left⟩, hbits, h⟩ := Option.bind_eq_some_iff.mp h
      have hbody := of_readNat hbits
      cases h
      refine ⟨trivial, ?_⟩
      simp only [encode, List.length_append, Bytes.length_ofNat]
      omega
    · obtain ⟨⟨s, left⟩, hs, h⟩ := Option.bind_eq_some_iff.mp h
      have hbody := of_readString hs
      cases h
      refine ⟨trivial, ?_⟩
      simp only [encode, List.length_append, Bytes.length_ofNat, Bytes.length_ofString]
      omega
    · obtain ⟨⟨count, left⟩, hcount, h⟩ := Option.bind_eq_some_iff.mp h
      obtain ⟨⟨items, last⟩, hitems, h⟩ := Option.bind_eq_some_iff.mp h
      have hbody := of_readNat hcount
      have hitems : readItems fuel count left = some (items, last) := hitems
      obtain ⟨hcanonical, hle⟩ := of_readItems hitems
      cases h
      refine ⟨hcanonical, ?_⟩
      simp only [encode, List.length_append, Bytes.length_ofNat]
      omega
    · obtain ⟨⟨count, left⟩, hcount, h⟩ := Option.bind_eq_some_iff.mp h
      obtain ⟨⟨entries, last⟩, hentries, h⟩ := Option.bind_eq_some_iff.mp h
      have hbody := of_readNat hcount
      have hentries : readEntries fuel count left = some (entries, last) := hentries
      obtain ⟨hcanonical, hle⟩ := of_readEntries hentries
      cases h
      have hsorted := Entries.sum_ofList_le
        (fun entry : String × Value => (Bytes.ofString 8 entry.1 ++ entry.2.encode).length) entries
      rw [← length_encodeEntries, ← length_encodeEntries] at hsorted
      refine ⟨⟨Entries.ofList_pairwise entries, canonicalEntries_iff.mpr fun entry hentry =>
        canonicalEntries_iff.mp hcanonical entry (Entries.mem_of_mem_ofList hentry)⟩, ?_⟩
      simp only [encode, List.length_append, Bytes.length_ofNat]
      omega
    · cases h

theorem of_readItems {fuel count : Nat} {bytes rest : Bytes} {items : List Value}
    (h : readItems fuel count bytes = some (items, rest)) :
    CanonicalItems items ∧ (encodeItems items).length + rest.length ≤ bytes.length := by
  match fuel, count with
  | _, 0 =>
    rw [readItems] at h
    cases h
    exact ⟨trivial, (Nat.zero_add _).le⟩
  | 0, count + 1 => rw [readItems] at h; cases h
  | fuel + 1, count + 1 =>
    rw [readItems] at h
    obtain ⟨⟨v, left⟩, hv, h⟩ := Option.bind_eq_some_iff.mp h
    obtain ⟨⟨others, last⟩, hothers, h⟩ := Option.bind_eq_some_iff.mp h
    obtain ⟨hcanonical, hle⟩ := of_read hv
    obtain ⟨hcanonicals, hles⟩ := of_readItems hothers
    cases h
    refine ⟨⟨hcanonical, hcanonicals⟩, ?_⟩
    rw [encodeItems, List.length_append]
    omega

theorem of_readEntries {fuel count : Nat} {bytes rest : Bytes} {entries : List (String × Value)}
    (h : readEntries fuel count bytes = some (entries, rest)) :
    CanonicalEntries entries ∧ (encodeEntries entries).length + rest.length ≤ bytes.length := by
  match fuel, count with
  | _, 0 =>
    rw [readEntries] at h
    cases h
    exact ⟨trivial, (Nat.zero_add _).le⟩
  | 0, count + 1 => rw [readEntries] at h; cases h
  | fuel + 1, count + 1 =>
    rw [readEntries] at h
    obtain ⟨⟨k, body⟩, hk, h⟩ := Option.bind_eq_some_iff.mp h
    obtain ⟨⟨v, left⟩, hv, h⟩ := Option.bind_eq_some_iff.mp h
    obtain ⟨⟨others, last⟩, hothers, h⟩ := Option.bind_eq_some_iff.mp h
    have hkey := of_readString hk
    obtain ⟨hcanonical, hle⟩ := of_read hv
    obtain ⟨hcanonicals, hles⟩ := of_readEntries hothers
    cases h
    refine ⟨⟨hcanonical, hcanonicals⟩, ?_⟩
    rw [encodeEntries, List.length_append, List.length_append, Bytes.length_ofString]
    omega

end

/-- A value that is decoded has a stored form of its own, no longer than the one it came from. -/
theorem of_decode? {bytes : Bytes} {v : Value} (h : decode? bytes = some v) :
    v.Canonical ∧ v.encode.length ≤ bytes.length := by
  obtain ⟨⟨found, rest⟩, hread, rfl⟩ := Option.map_eq_some_iff.mp h
  obtain ⟨hcanonical, hle⟩ := of_read hread
  exact ⟨hcanonical, (Nat.le_add_right ..).trans hle⟩

end Value

end ColumnStore
