import ColumnStore.Proofs.Bitmap

/-!
# Rows selected chunk by chunk

A list of bitmaps, one for each chunk from some chunk on, stands for the rows whose offset is in the
bitmap of their chunk (`selects`). `rowsFrom` lists these rows; it ascends (`rowsFrom_pairwise`) and
is as long as the bitmaps count (`length_rowsFrom`), so it is the rows of a range that are selected
(`rowsFrom_eq_filter`).
-/

namespace ColumnStore

namespace Selection

theorem div_of_offset {size id offset : Nat} (h : offset < size) :
    (id * size + offset) / size = id := by
  rw [Nat.mul_comm, Nat.mul_add_div (by omega), Nat.div_eq_of_lt h, Nat.add_zero]

theorem mod_of_offset {size id offset : Nat} (h : offset < size) :
    (id * size + offset) % size = offset := by
  rw [Nat.mul_comm, Nat.mul_add_mod, Nat.mod_eq_of_lt h]

/-- Two rows of one chunk are told apart by their offsets. -/
theorem row_eq_iff {size row row' : Nat} :
    row' = row ↔ row' / size = row / size ∧ row' % size = row % size := by
  constructor
  · rintro rfl
    exact ⟨rfl, rfl⟩
  · rintro ⟨hdiv, hmod⟩
    rw [← Nat.div_add_mod' row' size, hdiv, hmod, Nat.div_add_mod']

/-- Whether a row is selected by bitmaps that begin with that of chunk `id`. -/
def selects (chunkSize : Nat) : List Bitmap → (id : Nat) → (row : Nat) → Bool
  | [], _, _ => false
  | bits :: rest, id, row =>
    (decide (row / chunkSize = id) && bits.contains (row % chunkSize)) ||
      selects chunkSize rest (id + 1) row

/-- The rows selected by bitmaps that begin with that of chunk `id`. -/
def rowsFrom (chunkSize : Nat) (bitmaps : List Bitmap) (id : Nat) : List Nat :=
  (bitmaps.zipIdx id).flatMap fun (bits, id) =>
    bits.toList.map fun offset => id * chunkSize + offset

variable {chunkSize : Nat} {bitmaps : List Bitmap}

theorem selects_of_lt {id row : Nat} (h : row / chunkSize < id) :
    selects chunkSize bitmaps id row = false := by
  induction bitmaps generalizing id with
  | nil => rfl
  | cons bits rest ih =>
    rw [selects, ih (by omega), decide_eq_false (by omega)]
    rfl

/-- A row is judged by the bitmap of its chunk. -/
theorem selects_add (id row : Nat) (hle : id ≤ row / chunkSize) :
    selects chunkSize bitmaps id row =
      bitmaps[row / chunkSize - id]?.any fun bits => bits.contains (row % chunkSize) := by
  induction bitmaps generalizing id with
  | nil => rfl
  | cons bits rest ih =>
    rw [selects]
    rcases Nat.eq_or_lt_of_le hle with heq | hlt
    · rw [selects_of_lt (by omega), ← heq, Nat.sub_self]
      simp
    · rw [ih (id + 1) hlt, decide_eq_false (by omega),
        show row / chunkSize - id = row / chunkSize - (id + 1) + 1 by omega,
        List.getElem?_cons_succ]
      rfl

theorem selects_zero (row : Nat) :
    selects chunkSize bitmaps 0 row =
      bitmaps[row / chunkSize]?.any fun bits => bits.contains (row % chunkSize) :=
  selects_add 0 row (Nat.zero_le _)

theorem rowsFrom_cons (bits : Bitmap) (rest : List Bitmap) (id : Nat) :
    rowsFrom chunkSize (bits :: rest) id =
      (bits.toList.map fun offset => id * chunkSize + offset) ++
        rowsFrom chunkSize rest (id + 1) := by
  rw [rowsFrom, rowsFrom, List.zipIdx_cons, List.flatMap_cons]

/-- Every position lies below the chunk size. -/
def Bounded (chunkSize : Nat) (bitmaps : List Bitmap) : Prop :=
  ∀ bits ∈ bitmaps, ∀ offset, bits.contains offset = true → offset < chunkSize

theorem Bounded.tail {bits : Bitmap} {rest : List Bitmap} (h : Bounded chunkSize (bits :: rest)) :
    Bounded chunkSize rest :=
  fun b hb => h b (List.mem_cons_of_mem _ hb)

theorem mem_rowsFrom (h : Bounded chunkSize bitmaps) {id row : Nat} :
    row ∈ rowsFrom chunkSize bitmaps id ↔ selects chunkSize bitmaps id row = true := by
  induction bitmaps generalizing id with
  | nil => simp [rowsFrom, selects]
  | cons bits rest ih =>
    rw [rowsFrom_cons, List.mem_append, ih h.tail, selects, Bool.or_eq_true]
    refine or_congr ?_ Iff.rfl
    rw [List.mem_map, Bool.and_eq_true, decide_eq_true_iff]
    constructor
    · rintro ⟨offset, hoffset, rfl⟩
      rw [Bitmap.mem_toList] at hoffset
      have hlt := h bits List.mem_cons_self offset hoffset
      rw [div_of_offset hlt, mod_of_offset hlt]
      exact ⟨rfl, hoffset⟩
    · rintro ⟨rfl, hcontains⟩
      exact ⟨row % chunkSize, Bitmap.mem_toList.mpr hcontains, Nat.div_add_mod' row chunkSize⟩

theorem rowsFrom_pairwise (h : Bounded chunkSize bitmaps) (id : Nat) :
    (rowsFrom chunkSize bitmaps id).Pairwise (· < ·) := by
  induction bitmaps generalizing id with
  | nil => exact List.Pairwise.nil
  | cons bits rest ih =>
    rw [rowsFrom_cons, List.pairwise_append]
    refine ⟨?_, ih h.tail (id + 1), fun row hrow other hother => ?_⟩
    · rw [List.pairwise_map]
      exact bits.toList_pairwise.imp (by omega)
    · obtain ⟨offset, hoffset, rfl⟩ := List.mem_map.mp hrow
      have hlt := h bits List.mem_cons_self offset (Bitmap.mem_toList.mp hoffset)
      rw [mem_rowsFrom h.tail] at hother
      have hid : id + 1 ≤ other / chunkSize := by
        by_contra hnot
        rw [selects_of_lt (by omega)] at hother
        cases hother
      have := (Nat.le_div_iff_mul_le (by omega)).mp hid
      rw [Nat.succ_mul] at this
      omega

theorem length_rowsFrom (bitmaps : List Bitmap) (id : Nat) :
    (rowsFrom chunkSize bitmaps id).length = (bitmaps.map Bitmap.count).sum := by
  induction bitmaps generalizing id with
  | nil => rfl
  | cons bits rest ih =>
    rw [rowsFrom_cons, List.length_append, List.length_map, ih, List.map_cons, List.sum_cons,
      Bitmap.count_eq]

theorem rowsFrom_eq_filter (h : Bounded chunkSize bitmaps) {limit : Nat}
    (hlimit : ∀ row, selects chunkSize bitmaps 0 row = true → row < limit) :
    rowsFrom chunkSize bitmaps 0 = (List.range limit).filter (selects chunkSize bitmaps 0) := by
  apply Bitmap.eq_of_pairwise_lt (rowsFrom_pairwise h 0) (List.pairwise_lt_range.filter _)
  intro row
  rw [mem_rowsFrom h, List.mem_filter, List.mem_range]
  exact ⟨fun hrow => ⟨hlimit row hrow, hrow⟩, And.right⟩

end Selection

end ColumnStore
