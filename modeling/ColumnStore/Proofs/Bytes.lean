import ColumnStore.Proofs.Dictionary
import ColumnStore.Proofs.Reader

/-!
# Readers that undo writers

`Reads x bytes a`: the reader takes exactly the given bytes off the front, whatever follows them,
and gives `a`. The rules follow the way readers are put together, and numbers (`Reads.nat`) and
texts (`Reads.string`) that fit their width are read back as they were written.

`Takes x P`: the bytes that the reader takes and what it gives for them satisfy `P`. With it the
converse is stated, that what is read was stored in just these bytes (`takes_nat`).
-/

namespace ColumnStore

namespace Bytes

/-! ## Numbers -/

@[simp] theorem length_ofNat (width n : Nat) : (ofNat width n).length = width := by
  induction width generalizing n with
  | zero => rfl
  | succ width ih => rw [ofNat, List.length_cons, ih]

/-- Parts of one length. -/
theorem length_flatMap_of_forall {ι : Type} {write : ι → Bytes} {size : Nat} {items : List ι}
    (h : ∀ i ∈ items, (write i).length = size) :
    (items.flatMap write).length = items.length * size := by
  induction items with
  | nil => exact (Nat.zero_mul size).symm
  | cons i rest ih =>
    rw [List.flatMap_cons, List.length_append, h i List.mem_cons_self,
      ih fun j hj => h j (List.mem_cons_of_mem _ hj), List.length_cons, Nat.succ_mul, Nat.add_comm]

/-- Parts of at least some length. -/
theorem le_length_flatMap {ι : Type} {write : ι → Bytes} {size : Nat} {items : List ι}
    (h : ∀ i ∈ items, size ≤ (write i).length) :
    items.length * size ≤ (items.flatMap write).length := by
  induction items with
  | nil => rw [List.length_nil, Nat.zero_mul]; exact Nat.zero_le _
  | cons i rest ih =>
    have hfirst := h i List.mem_cons_self
    have hrest := ih fun j hj => h j (List.mem_cons_of_mem _ hj)
    rw [List.flatMap_cons, List.length_append, List.length_cons, Nat.succ_mul]
    omega

theorem toNat_ofNat {width n : Nat} (h : n < 256 ^ width) : toNat (ofNat width n) = n := by
  induction width generalizing n with
  | zero =>
    rw [pow_zero, Nat.lt_one_iff] at h
    rw [h]
    rfl
  | succ width ih =>
    have hdiv : n / 256 < 256 ^ width := by
      rw [pow_succ, Nat.mul_comm] at h
      exact Nat.div_lt_of_lt_mul h
    rw [ofNat, toNat, ih hdiv, UInt8.toNat_ofNat']
    omega

/-- What does not fit the width is cut off. -/
theorem ofNat_mod (width n : Nat) : ofNat width (n % 256 ^ width) = ofNat width n := by
  induction width generalizing n with
  | zero => rfl
  | succ width ih =>
    have hlow : UInt8.ofNat (n % 256 ^ (width + 1)) = UInt8.ofNat n := by
      apply UInt8.toNat_inj.mp
      rw [UInt8.toNat_ofNat', UInt8.toNat_ofNat', pow_succ']
      exact Nat.mod_mul_right_mod ..
    have hhigh : n % 256 ^ (width + 1) / 256 = n / 256 % 256 ^ width := by
      rw [pow_succ']
      exact Nat.mod_mul_right_div_self ..
    rw [ofNat, ofNat, hlow, hhigh, ih]

theorem toNat_lt (bytes : Bytes) : toNat bytes < 256 ^ bytes.length := by
  induction bytes with
  | nil => exact Nat.one_pos
  | cons b rest ih =>
    have hb : b.toNat < 256 := b.toNat_lt
    rw [toNat, List.length_cons, pow_succ]
    omega

/-- Four bytes make a number of 32 bits. -/
theorem toNat_lt_of_length {bytes : Bytes} (h : bytes.length = 4) : toNat bytes < 2 ^ 32 :=
  (toNat_lt bytes).trans_eq (by rw [h]; rfl)

/-- Bytes are written again from the number that they stand for. -/
theorem ofNat_toNat (bytes : Bytes) : ofNat bytes.length (toNat bytes) = bytes := by
  induction bytes with
  | nil => rfl
  | cons b rest ih =>
    have hb : b.toNat < 256 := b.toNat_lt
    have hlow : UInt8.ofNat (b.toNat + 256 * toNat rest) = b := by
      apply UInt8.toNat_inj.mp
      rw [UInt8.toNat_ofNat']
      omega
    have hhigh : (b.toNat + 256 * toNat rest) / 256 = toNat rest := by omega
    rw [List.length_cons, toNat, ofNat, hlow, hhigh, ih]

/-! ## Texts -/

theorem toList_loop (bytes : ByteArray) (i : Nat) (front : List UInt8) :
    ByteArray.toList.loop bytes i front = front.reverse ++ bytes.data.toList.drop i := by
  fun_induction ByteArray.toList.loop bytes i front with
  | case1 i front hlt ih =>
    have hlength : i < bytes.data.toList.length := hlt
    have hbyte : bytes.get! i = bytes.data.toList[i] := by
      show bytes.data[i]! = _
      rw [getElem!_pos bytes.data i hlt, Array.getElem_toList]
    rw [ih, hbyte, List.reverse_cons, List.append_assoc, List.singleton_append,
      List.getElem_cons_drop]
  | case2 i front hge =>
    have hdrop : bytes.data.toList.drop i = [] := List.drop_eq_nil_of_le (Nat.le_of_not_lt hge)
    rw [hdrop, List.append_nil]

theorem toList_eq (bytes : ByteArray) : bytes.toList = bytes.data.toList := by
  rw [ByteArray.toList, toList_loop]
  rfl

theorem length_toUTF8 (s : String) : s.toUTF8.toList.length = s.utf8ByteSize := by
  rw [toList_eq, Array.length_toList]
  exact s.size_toByteArray

theorem toString?_toUTF8 (s : String) : toString? s.toUTF8.toList = some s := by
  rw [toString?, toList_eq, Array.toArray_toList]
  exact Dictionary.fromUTF8?_toByteArray s

theorem utf8ByteSize_of_toString? {bytes : Bytes} {s : String} (h : toString? bytes = some s) :
    s.utf8ByteSize = bytes.length := by
  rw [← s.size_toByteArray, Dictionary.toByteArray_of_fromUTF8? h]
  rfl

theorem length_ofString (width : Nat) (s : String) :
    (ofString width s).length = width + s.utf8ByteSize := by
  rw [ofString, List.length_append, length_ofNat, length_toUTF8]

/-! ## Taking bytes off the front -/

theorem hasAtLeast_eq (n : Nat) (bytes : Bytes) :
    hasAtLeast n bytes = decide (n ≤ bytes.length) := by
  induction n generalizing bytes with
  | zero => simp [hasAtLeast]
  | succ n ih =>
    cases bytes with
    | nil => rfl
    | cons b rest =>
      rw [hasAtLeast, ih]
      simp

theorem of_splitAt? {n : Nat} {bytes front rest : Bytes}
    (h : splitAt? n bytes = some (front, rest)) :
    front.length = n ∧ n + rest.length = bytes.length := by
  unfold splitAt? at h
  rw [hasAtLeast_eq] at h
  split_ifs at h with hle
  cases h
  rw [decide_eq_true_iff] at hle
  rw [List.length_take, List.length_drop]
  omega

theorem splitAt?_append {bytes : Bytes} {n : Nat} (h : bytes.length = n) (rest : Bytes) :
    splitAt? n (bytes ++ rest) = some (bytes, rest) := by
  subst h
  have hlong : hasAtLeast bytes.length (bytes ++ rest) = true := by
    rw [hasAtLeast_eq, List.length_append, decide_eq_true_iff]
    omega
  rw [splitAt?, if_pos hlong, List.take_left, List.drop_left]

end Bytes

namespace Reader

variable {α β : Type}

theorem take_apply (n : Nat) (part : String) (bytes : Bytes) :
    take n part bytes =
      if n ≤ bytes.length then .ok (bytes.take n, bytes.drop n) else .error (.truncated part) := by
  rw [take, Bytes.splitAt?, Bytes.hasAtLeast_eq]
  by_cases h : n ≤ bytes.length
  · simp only [h, decide_true, if_true]
  · simp only [h, decide_false, if_false, Bool.false_eq_true]

theorem yields_take (n : Nat) (part : String) :
    Yields (take n part) fun bytes => bytes.length = n := by
  intro bytes front rest heq
  rw [take_apply] at heq
  split_ifs at heq with h
  cases heq
  rw [List.length_take, Nat.min_eq_left h]

theorem take_bind_apply {n : Nat} {bytes : Bytes} (h : n ≤ bytes.length) (part : String)
    (f : Bytes → Reader β) : (take n part >>= f) bytes = f (bytes.take n) (bytes.drop n) := by
  rw [bind_apply, take_apply, if_pos h]

theorem take_bind_of_lt {n : Nat} {bytes : Bytes} (h : bytes.length < n) (part : String)
    (f : Bytes → Reader β) : (take n part >>= f) bytes = .error (.truncated part) := by
  rw [bind_apply, take_apply, if_neg (Nat.not_le.mpr h)]

theorem nat_bind_apply {width : Nat} {bytes : Bytes} (h : width ≤ bytes.length) (part : String)
    (f : Nat → Reader β) :
    (nat width part >>= f) bytes = f (Bytes.toNat (bytes.take width)) (bytes.drop width) := by
  rw [bind_apply, nat, take_bind_apply h]
  rfl

theorem nat_bind_of_lt {width : Nat} {bytes : Bytes} (h : bytes.length < width) (part : String)
    (f : Nat → Reader β) : (nat width part >>= f) bytes = .error (.truncated part) := by
  rw [bind_apply, nat, take_bind_of_lt h]

theorem yields_nat (width : Nat) (part : String) :
    Yields (nat width part) fun n => n < 256 ^ width := by
  refine (yields_take width part).bind fun bytes hlength => Yields.pure ?_
  rw [← hlength]
  exact bytes.toNat_lt

theorem yields_string (part : String) :
    Yields (string part) fun s => s.utf8ByteSize < 2 ^ 32 := by
  refine (yields_nat 4 part).bind fun length hlength => ?_
  refine (yields_take length part).bind fun bytes hbytes => ?_
  cases htext : bytes.toString? with
  | none => exact Yields.fail _ _
  | some s =>
    have hsize := Bytes.utf8ByteSize_of_toString? htext
    exact Yields.pure (by omega)

/-- A reader takes some bytes off the front and gives a value, whatever follows. -/
def Reads (x : Reader α) (bytes : Bytes) (a : α) : Prop := ∀ rest, x (bytes ++ rest) = .ok (a, rest)

variable {x : Reader α} {front back bytes : Bytes} {a : α} {b : β}

/-- What a reader gives of any bytes it gives of these. -/
theorem Reads.of_yields (h : Reads x bytes a) {P : α → Prop} (hP : Yields x P) : P a :=
  hP (bytes ++ []) a [] (h [])

theorem Reads.pure (a : α) : Reads (Pure.pure a) [] a := fun _ => rfl

theorem Reads.bind (h : Reads x front a) {f : α → Reader β} (hf : Reads (f a) back b) :
    Reads (x >>= f) (front ++ back) b := by
  intro rest
  rw [bind_apply, List.append_assoc, h]
  exact hf rest

/-- The last reader of several takes what is left. -/
theorem Reads.bind_pure (h : Reads x bytes a) {f : α → Reader β} (hf : Reads (f a) [] b) :
    Reads (x >>= f) bytes b := by
  have := h.bind hf
  rwa [List.append_nil] at this

/-- A reader that is followed by others. -/
theorem Reads.bind_apply (h : Reads x bytes a) (f : α → Reader β) (rest : Bytes) :
    (x >>= f) (bytes ++ rest) = f a rest := by
  rw [Reader.bind_apply, h]

theorem require_bind_apply {ok : Bool} (hok : ok = true) (cause : Corruption)
    (f : Unit → Reader β) (bytes : Bytes) : (Reader.require ok cause >>= f) bytes = f () bytes := by
  rw [Reader.bind_apply, Reader.require, if_pos hok]

theorem Reads.require_bind {ok : Bool} (hok : ok = true) (cause : Corruption)
    {f : Unit → Reader β} (hf : Reads (f ()) bytes b) :
    Reads (Reader.require ok cause >>= f) bytes b := by
  intro rest
  rw [require_bind_apply hok]
  exact hf rest

theorem requireLeft_bind_apply {n : Nat} (h : n ≤ bytes.length) (cause : Corruption)
    (f : Unit → Reader β) : (Reader.requireLeft n cause >>= f) bytes = f () bytes := by
  have hlong : Bytes.hasAtLeast n bytes = true := by
    rw [Bytes.hasAtLeast_eq]
    exact decide_eq_true h
  rw [Reader.bind_apply, Reader.requireLeft, if_pos hlong]

theorem Reads.requireLeft_bind {n : Nat} (h : n ≤ bytes.length) (cause : Corruption)
    {f : Unit → Reader β} (hf : Reads (f ()) bytes b) :
    Reads (Reader.requireLeft n cause >>= f) bytes b := by
  intro rest
  rw [requireLeft_bind_apply (by rw [List.length_append]; omega)]
  exact hf rest

theorem Reads.take {n : Nat} (h : bytes.length = n) (part : String) :
    Reads (Reader.take n part) bytes bytes := by
  intro rest
  rw [Reader.take, Bytes.splitAt?_append h]

theorem Reads.nat {width n : Nat} (h : n < 256 ^ width) (part : String) :
    Reads (Reader.nat width part) (Bytes.ofNat width n) n := by
  refine (Reads.take (Bytes.length_ofNat width n) part).bind_pure ?_
  rw [Bytes.toNat_ofNat h]
  exact Reads.pure n

theorem Reads.string {s : String} (h : s.utf8ByteSize < 2 ^ 32) (part : String) :
    Reads (Reader.string part) (Bytes.ofString 4 s) s := by
  refine (Reads.nat (by omega) part).bind ?_
  refine (Reads.take (Bytes.length_toUTF8 s) part).bind_pure ?_
  rw [Bytes.toString?_toUTF8]
  exact Reads.pure s

theorem Reads.lift {e : Except Corruption α} (h : e = .ok a) : Reads (liftM e) [] a := by
  subst h
  intro rest
  rfl

/-- Attempts that take nothing off the front. -/
theorem mapM_lift {ι : Type} (e : ι → Except Corruption α) (items : List ι) (bytes : Bytes) :
    (items.mapM fun i => (liftM (e i) : Reader α)) bytes =
      (items.mapM e).map fun results => (results, bytes) := by
  induction items with
  | nil => rfl
  | cons i rest ih =>
    rw [List.mapM_cons, List.mapM_cons, bind_apply]
    cases e i with
    | error cause => rfl
    | ok a =>
      show (rest.mapM (fun i => (liftM (e i) : Reader α)) >>= _) bytes = _
      rw [bind_apply, ih]
      cases rest.mapM e <;> rfl

/-- One reader after the other, each for its own part. -/
theorem Reads.mapM {ι : Type} {f : ι → Reader α} {write : ι → Bytes} {value : ι → α}
    {items : List ι} (h : ∀ i ∈ items, Reads (f i) (write i) (value i)) :
    Reads (items.mapM f) (items.flatMap write) (items.map value) := by
  induction items with
  | nil =>
    rw [List.mapM_nil]
    exact Reads.pure []
  | cons i rest ih =>
    rw [List.mapM_cons, List.flatMap_cons]
    refine (h i List.mem_cons_self).bind ?_
    exact (ih fun j hj => h j (List.mem_cons_of_mem _ hj)).bind_pure (Reads.pure _)

/-- The same reader over and over. -/
theorem Reads.replicate {ι : Type} {write : ι → Bytes} {value : ι → α} {items : List ι}
    (h : ∀ i ∈ items, Reads x (write i) (value i)) :
    Reads (Reader.replicate x items.length) (items.flatMap write) (items.map value) := by
  induction items with
  | nil => exact Reads.pure []
  | cons i rest ih =>
    rw [List.length_cons, List.flatMap_cons]
    refine (h i List.mem_cons_self).bind ?_
    exact (ih fun j hj => h j (List.mem_cons_of_mem _ hj)).bind_pure (Reads.pure _)

/-! ## What readers take -/

variable {P : Bytes → α → Prop} {Q : Bytes → β → Prop}

/-- The bytes that the reader takes off the front and what it gives for them satisfy a property. -/
def Takes (x : Reader α) (P : Bytes → α → Prop) : Prop :=
  ∀ bytes a rest, x bytes = .ok (a, rest) → ∃ front, bytes = front ++ rest ∧ P front a

theorem Takes.pure {a : α} (h : P [] a) : Takes (Pure.pure a) P := by
  intro bytes b rest heq
  cases heq
  exact ⟨[], rfl, h⟩

/-- What follows a reader is asked for the bytes of both. -/
theorem Takes.bind (h : Takes x P) {f : α → Reader β}
    (hf : ∀ front a, P front a → Takes (f a) fun back b => Q (front ++ back) b) :
    Takes (x >>= f) Q := by
  intro bytes b rest heq
  obtain ⟨a, left, hx, hfa⟩ := exists_of_bind heq
  obtain ⟨front, rfl, hP⟩ := h bytes a left hx
  obtain ⟨back, rfl, hQ⟩ := hf front a hP left b rest hfa
  exact ⟨front ++ back, (List.append_assoc ..).symm, hQ⟩

theorem takes_requireLeft (n : Nat) (cause : Corruption) :
    Takes (requireLeft n cause) fun front _ => front = [] := by
  intro bytes a rest heq
  unfold requireLeft at heq
  split_ifs at heq
  cases heq
  exact ⟨[], rfl, rfl⟩

theorem takes_take (n : Nat) (part : String) :
    Takes (take n part) fun front bytes => front = bytes ∧ bytes.length = n := by
  intro bytes front rest heq
  have hlength := yields_take n part bytes front rest heq
  rw [take_apply] at heq
  split_ifs at heq
  cases heq
  exact ⟨bytes.take n, (List.take_append_drop n bytes).symm, rfl, hlength⟩

/-- A number is taken as the bytes that it is written in. -/
theorem takes_nat (width : Nat) (part : String) :
    Takes (nat width part) fun front n => front = Bytes.ofNat width n := by
  refine (takes_take width part).bind fun front bytes ⟨hfront, hlength⟩ => Takes.pure ?_
  rw [List.append_nil, hfront, ← hlength, Bytes.ofNat_toNat]

/-- Attempts take nothing off the front. -/
theorem takes_mapM_lift {ι : Type} (e : ι → Except Corruption α) (items : List ι) :
    Takes (items.mapM fun i => (liftM (e i) : Reader α)) fun front results =>
      front = [] ∧ items.mapM e = .ok results := by
  intro bytes results rest heq
  rw [mapM_lift] at heq
  cases hitems : items.mapM e with
  | error cause =>
    rw [hitems] at heq
    cases heq
  | ok found =>
    rw [hitems] at heq
    cases heq
    exact ⟨[], rfl, rfl, rfl⟩

end Reader

end ColumnStore
