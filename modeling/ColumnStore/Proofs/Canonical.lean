import ColumnStore.Proofs.Dictionary.Interner
import ColumnStore.Proofs.Segment.Codec

/-!
# Stored forms of bitmaps and dictionaries

A bitmap and a dictionary are found at the front of some bytes, and whoever reads on goes past them
by the size that they have when they are stored, not by what was looked at. This is sound because
the stored forms are canonical: the bytes in which something is found start with its stored form,
also where the texts of a dictionary overlap, repeat or leave bytes of the run out.

* `ExactCodec`: both directions, for one pair of writer and reader;
* `Bitmap.takes_read`, `Dictionary.takes_read`: a reader takes the stored form of what it gives;
* `Interner.Exact`: both directions, of interners. The map from texts to ids is not stored and is
  made anew, and it finds the same ids;
* `stored_parts_exact`: both directions, of bitmaps and of every dictionary and interner that can
  come about.
-/

namespace ColumnStore

open Reader (Reads Takes takes_requireLeft takes_take takes_nat takes_mapM_lift)

/-- A writer and a reader agree on the stored form of everything storable, and the reader accepts
    nothing else. -/
structure ExactCodec {α : Type} (Storable : α → Prop) (encode : α → Bytes) (encodedSize : α → Nat)
    (decode : Bytes → Except Corruption α) (read : Reader α) : Prop where
  /-- What was stored is found again, whatever follows. -/
  decode_encode : ∀ a, Storable a → ∀ tail, decode (encode a ++ tail) = .ok a
  /-- The size is the number of bytes written. -/
  length_encode : ∀ a, (encode a).length = encodedSize a
  /-- Bytes in which something is found are long enough for its stored form. -/
  encodedSize_le : ∀ bytes a, decode bytes = .ok a → encodedSize a ≤ bytes.length
  /-- They start with its stored form. -/
  encode_of_decode : ∀ bytes a, decode bytes = .ok a → encode a = bytes.take (encodedSize a)
  /-- Going on by the size is going on after what was looked at. -/
  read_of_decode : ∀ bytes a, decode bytes = .ok a →
    read bytes = .ok (a, bytes.drop (encodedSize a))

theorem ExactCodec.of_takes {α : Type} {Storable : α → Prop} {encode : α → Bytes}
    {encodedSize : α → Nat} {read : Reader α} (hreads : ∀ a, Storable a → Reads read (encode a) a)
    (hlength : ∀ a, (encode a).length = encodedSize a)
    (htakes : Takes read fun front a => front = encode a) :
    ExactCodec Storable encode encodedSize (fun bytes => (read bytes).map Prod.fst) read := by
  have hfront : ∀ bytes a, (read bytes).map Prod.fst = .ok a →
      ∃ rest, read bytes = .ok (a, rest) ∧ bytes = encode a ++ rest := by
    intro bytes a hdecode
    obtain ⟨rest, hread⟩ := Reader.map_fst_eq_ok_iff.mp hdecode
    obtain ⟨front, hbytes, rfl⟩ := htakes bytes a rest hread
    exact ⟨rest, hread, hbytes⟩
  refine ⟨fun a ha tail => ?_, hlength, fun bytes a h => ?_, fun bytes a h => ?_,
    fun bytes a h => ?_⟩
  · exact Reader.map_fst_eq_ok_iff.mpr ⟨tail, hreads a ha tail⟩
  · obtain ⟨rest, -, rfl⟩ := hfront bytes a h
    rw [List.length_append, hlength]
    exact Nat.le_add_right ..
  · obtain ⟨rest, -, rfl⟩ := hfront bytes a h
    rw [List.take_left' (hlength a)]
  · obtain ⟨rest, hread, rfl⟩ := hfront bytes a h
    rw [hread, List.drop_left' (hlength a)]

/-! ## Bitmaps -/

namespace Bitmap

theorem length_encode (b : Bitmap) : b.encode.length = b.encodedSize := by
  rw [encode, List.length_append, Bytes.length_ofNat,
    Bytes.length_flatMap_of_forall fun w _ => Bytes.length_ofNat 8 w.toNat, Array.length_toList]
  rfl

/-- Words are written in the bytes that they were found in. -/
theorem flatMap_wordsOf {bytes : Bytes} {n : Nat} (h : bytes.length = n * 8) :
    ((wordsOf bytes).flatMap fun w => Bytes.ofNat 8 w.toNat) = bytes := by
  refine Bytes.eights_induction (motive := fun _ bytes =>
    ((wordsOf bytes).flatMap fun w => Bytes.ofNat 8 w.toNat) = bytes) rfl ?_ h
  intro n b0 b1 b2 b3 b4 b5 b6 b7 rest ih
  have hword : Bytes.ofNat 8 (Bytes.toNat [b0, b1, b2, b3, b4, b5, b6, b7]) =
      [b0, b1, b2, b3, b4, b5, b6, b7] := Bytes.ofNat_toNat [b0, b1, b2, b3, b4, b5, b6, b7]
  have hlt : Bytes.toNat [b0, b1, b2, b3, b4, b5, b6, b7] < 2 ^ 64 :=
    (Bytes.toNat_lt _).trans_eq (by norm_num)
  rw [wordsOf, List.flatMap_cons, ih, UInt64.toNat_ofNat_of_lt' hlt, hword]
  rfl

theorem takes_read : Takes read fun front b => front = b.encode := by
  refine (takes_nat 4 _).bind fun header count hheader => ?_
  refine (takes_take (count * 8) _).bind fun front body ⟨hfront, hlength⟩ => Takes.pure ?_
  rw [hheader, hfront, encode, List.append_nil, List.size_toArray, length_wordsOf hlength,
    flatMap_wordsOf hlength]

end Bitmap

/-! ## Dictionaries -/

namespace Dictionary

/-- The dictionaries that can come about: from no texts or from any bytes that are accepted, by
    interning. -/
inductive Reached : Dictionary → Prop where
  | empty : Reached empty
  | decode {bytes : Bytes} {d : Dictionary} (h : decode bytes = .ok d) : Reached d
  | intern {d : Dictionary} (h : Reached d) (s : String) : Reached (d.intern s).2

theorem Reached.wellFormed {d : Dictionary} (h : d.Reached) : d.WellFormed := by
  induction h with
  | empty => exact wellFormed_empty
  | decode h =>
    obtain ⟨rest, hread⟩ := Reader.map_fst_eq_ok_iff.mp h
    exact yields_read _ _ rest hread
  | intern _ s ih => exact ih.intern s

theorem length_encode (d : Dictionary) : d.encode.length = d.encodedSize := by
  rw [encode, List.length_append, List.length_append, List.length_append, Bytes.length_ofNat,
    Bytes.length_ofNat, Bytes.length_flatMap_of_forall fun entry _ => entry.length_encode,
    Array.length_toList, Array.length_toList]
  rfl

/-- Places are written in the bytes that they were found in. -/
theorem flatMap_placesOf {bytes : Bytes} {n : Nat} (h : bytes.length = n * 8) :
    ((placesOf bytes).flatMap fun place => Bytes.ofNat 4 place.1 ++ Bytes.ofNat 4 place.2) =
      bytes := by
  refine Bytes.eights_induction (motive := fun _ bytes =>
    ((placesOf bytes).flatMap fun place => Bytes.ofNat 4 place.1 ++ Bytes.ofNat 4 place.2) =
      bytes) rfl ?_ h
  intro n o0 o1 o2 o3 l0 l1 l2 l3 rest ih
  have hoffset : Bytes.ofNat 4 (Bytes.toNat [o0, o1, o2, o3]) = [o0, o1, o2, o3] :=
    Bytes.ofNat_toNat [o0, o1, o2, o3]
  have hlength : Bytes.ofNat 4 (Bytes.toNat [l0, l1, l2, l3]) = [l0, l1, l2, l3] :=
    Bytes.ofNat_toNat [l0, l1, l2, l3]
  rw [placesOf, List.flatMap_cons, ih, hoffset, hlength]
  rfl

theorem takes_read : Takes read fun front d => front = d.encode := by
  refine (takes_requireLeft 8 _).bind fun _ _ hnone => ?_
  refine (takes_nat 4 _).bind fun first count hfirst => ?_
  refine (takes_nat 4 _).bind fun second dataSize hsecond => ?_
  refine (takes_take (count * 8) _).bind fun third places ⟨hthird, hplaces⟩ => ?_
  refine (takes_take dataSize _).bind fun fourth data ⟨hfourth, hdata⟩ => ?_
  refine (takes_mapM_lift _ _).bind fun last entries ⟨hlast, hentries⟩ => Takes.pure ?_
  have hfound := map_place_of_mapM hentries
  have hcount : entries.length = count := by
    rw [← (length_placesOf hplaces).1, ← hfound, List.length_map]
  have hwritten : entries.flatMap Entry.encode = places := by
    rw [← flatMap_placesOf hplaces, ← hfound, List.flatMap_map]
    rfl
  rw [hnone, hfirst, hsecond, hthird, hfourth, hlast, encode, List.size_toArray, List.size_toArray,
    hcount, hdata, hwritten]
  simp only [List.nil_append, List.append_nil, List.append_assoc]

theorem exactCodec :
    ExactCodec
      (fun d : Dictionary => d.Reached ∧ d.entries.size < 2 ^ 32 ∧ d.data.size < 2 ^ 32)
      encode encodedSize decode read :=
  .of_takes (fun _ ⟨hd, hentries, hdata⟩ => reads_encode hd.wellFormed hentries hdata)
    length_encode takes_read

end Dictionary

/-! ## Interners -/

namespace Interner

/-- The interners that can come about: from no texts or from any bytes that are accepted, by
    interning. -/
inductive Reached : Interner → Prop where
  | empty : Reached empty
  | parse {bytes : Bytes} {t : Interner} (h : parse bytes = .ok t) : Reached t
  | intern {t t' : Interner} (h : Reached t) {s : String} {id : UInt32}
    (hintern : t.intern s = .ok (id, t')) : Reached t'

/-- The same bytes and places, and maps that find the same ids. -/
structure Same (t t' : Interner) : Prop where
  data : t'.data = t.data
  places : t'.places = t.places
  lookup : ∀ s, t'.lookup s = t.lookup s

/-- Interners are stored exactly: what is parsed of a stored form is the same as what was stored,
    and what is accepted was stored in the bytes that its size says. -/
structure Exact : Prop where
  /-- What was stored is found again, whatever follows. -/
  parse_encode : ∀ t : Interner, t.Reached → t.places.size < 2 ^ 32 → t.data.size < 2 ^ 32 →
    ∀ tail, ∃ t', parse (t.encode ++ tail) = .ok t' ∧ t.Same t'
  /-- The size is the number of bytes written. -/
  length_encode : ∀ t : Interner, t.encode.length = t.encodedSize
  /-- Bytes in which something is found are long enough for its stored form. -/
  encodedSize_le : ∀ bytes t, parse bytes = .ok t → t.encodedSize ≤ bytes.length
  /-- They start with its stored form. -/
  encode_of_parse : ∀ bytes t, parse bytes = .ok t → t.encode = bytes.take t.encodedSize

variable {t t' : Interner} {d : Dictionary}

/-- Places are the same if they are as numbers. -/
theorem Mirrors.same (h : t.Mirrors d) (h' : t'.Mirrors d) : t.Same t' where
  data := h'.data.trans h.data.symm
  places := by
    have hinjective : Function.Injective fun place : UInt32 × UInt32 =>
        (place.1.toNat, place.2.toNat) := fun _ _ heq =>
      Prod.ext (UInt32.toNat_inj.mp (congrArg Prod.fst heq))
        (UInt32.toNat_inj.mp (congrArg Prod.snd heq))
    exact Array.map_inj_right (fun _ _ heq => hinjective heq) |>.mp (h'.places.trans h.places.symm)
  lookup s := (h'.lookup_eq s).trans (h.lookup_eq s).symm

theorem size_le_of_intern {s : String} {id : UInt32} (h : t.intern s = .ok (id, t')) :
    t.size ≤ t'.size := by
  unfold intern at h
  split at h
  · cases h
    exact le_rfl
  · split_ifs at h
    cases h
    rw [size, size, push, Array.size_push]
    exact Nat.le_succ _

/-- An interner that has come about mirrors a dictionary that has, as long as 32 bits count the
    texts. -/
theorem Reached.exists_mirrors (h : t.Reached) (hsize : t.size < 2 ^ 32) :
    ∃ d : Dictionary, d.Reached ∧ t.Mirrors d := by
  induction h with
  | empty => exact ⟨.empty, .empty, mirrors_empty⟩
  | parse h =>
    obtain ⟨d, hdecode, hmirrors⟩ := exists_decode h
    exact ⟨d, .decode hdecode, hmirrors⟩
  | @intern t t' h s id hintern ih =>
    have hbefore := (size_le_of_intern hintern).trans_lt hsize
    obtain ⟨d, hreached, hmirrors⟩ := ih hbefore
    exact ⟨_, hreached.intern s, hmirrors.of_intern (hmirrors.size_eq ▸ hbefore) hintern⟩

theorem exact : Exact where
  parse_encode t h hplaces hdata tail := by
    obtain ⟨d, hreached, hmirrors⟩ := h.exists_mirrors hplaces
    have hreads := Dictionary.reads_encode hreached.wellFormed
      (show d.size < 2 ^ 32 from hmirrors.size_eq ▸ hplaces) (hmirrors.data ▸ hdata) tail
    obtain ⟨t', hparse, hmirrors'⟩ := exists_parse (Reader.map_fst_eq_ok_iff.mpr ⟨tail, hreads⟩)
    rw [hmirrors.encode_eq]
    exact ⟨t', hparse, hmirrors.same hmirrors'⟩
  length_encode := length_encode
  encodedSize_le bytes t h := by
    obtain ⟨d, hdecode, hmirrors⟩ := exists_decode h
    rw [hmirrors.encodedSize_eq]
    exact Dictionary.exactCodec.encodedSize_le bytes d hdecode
  encode_of_parse bytes t h := by
    obtain ⟨d, hdecode, hmirrors⟩ := exists_decode h
    rw [hmirrors.encode_eq, hmirrors.encodedSize_eq]
    exact Dictionary.exactCodec.encode_of_decode bytes d hdecode

end Interner

/-- Bitmaps, dictionaries and interners whose counts fit four bytes are found again in their stored
    forms with anything behind, and whatever is found in any bytes was stored in the bytes that its
    size says. -/
theorem stored_parts_exact :
    ExactCodec (fun b : Bitmap => b.words.size < 2 ^ 32) Bitmap.encode Bitmap.encodedSize
      Bitmap.decode Bitmap.read ∧
    ExactCodec
      (fun d : Dictionary => d.Reached ∧ d.entries.size < 2 ^ 32 ∧ d.data.size < 2 ^ 32)
      Dictionary.encode Dictionary.encodedSize Dictionary.decode Dictionary.read ∧
    Interner.Exact :=
  ⟨.of_takes (fun _ hwords => Bitmap.reads_encode hwords) Bitmap.length_encode Bitmap.takes_read,
    Dictionary.exactCodec, Interner.exact⟩

/-- Two texts in the same bytes of the run, a third one interned after them, and a byte behind. The
    map that is made anew finds the second text. -/
theorem stored_parts_exact_overlapping :
    let bytes : Bytes :=
      [2, 0, 0, 0, 2, 0, 0, 0, 0, 0, 0, 0, 2, 0, 0, 0, 1, 0, 0, 0, 1, 0, 0, 0, 97, 98, 255]
    let d : Dictionary := ⟨#[97, 98], #[⟨0, 2, "ab"⟩, ⟨1, 1, "b"⟩]⟩
    Dictionary.decode bytes = .ok d ∧ d.encode = bytes.take 26 ∧
      Dictionary.read bytes = .ok (d, [255]) ∧
      Dictionary.decode ((d.intern "c").2.encode ++ [255]) = .ok (d.intern "c").2 ∧
      Bitmap.decode (Bitmap.encode ⟨#[5, 0]⟩ ++ [255]) = .ok ⟨#[5, 0]⟩ ∧
      ∃ t t', Interner.parse bytes = .ok t ∧ Interner.parse (t.encode ++ [255]) = .ok t' ∧
        t'.lookup "b" = some 1 := by
  intro bytes d
  have hdecode : Dictionary.decode bytes = .ok d := by cbv
  obtain ⟨hbitmap, hdictionary, hinterner⟩ := stored_parts_exact
  refine ⟨hdecode, hdictionary.encode_of_decode bytes d hdecode,
    hdictionary.read_of_decode bytes d hdecode, ?_, hbitmap.decode_encode _ (by decide) _, ?_⟩
  · have hreached := (Dictionary.Reached.decode hdecode).intern "c"
    exact hdictionary.decode_encode _ ⟨hreached, by cbv, by cbv⟩ _
  · obtain ⟨t, hparse, hmirrors⟩ := Interner.exists_parse hdecode
    have hplaces : t.places.size = 2 := hmirrors.size_eq
    have hdata : t.data = #[97, 98] := hmirrors.data
    obtain ⟨t', hagain, hsame⟩ := hinterner.parse_encode t (.parse hparse) (by rw [hplaces]; decide)
      (by rw [hdata]; decide) [255]
    refine ⟨t, t', hparse, hagain, ?_⟩
    rw [hsame.lookup, hmirrors.lookup_eq]
    cbv

end ColumnStore
