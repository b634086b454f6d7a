import ColumnStore.Proofs.Schema
import ColumnStore.Update

/-!
# Schemas up to the order of their slots

Two schemas that list the same columns and indexes in different orders differ by a permutation of
the slots of the columns and one of the slots of the indexes (`Relabelling`). `Moved` says so of the
arrays that are laid out by slot; a permutation leaves alone the slots past the end of the array, so
that what is added behind lands in the same slot on both sides.

`Schema.Relabelled.lookup`, `Schema.Relabelled.column?`: a name leads to corresponding slots.
`Schema.Relabelled.indexesOn_perm`: corresponding columns have corresponding indexes, in some order.
`Moved.exists_of_perm`: two orders of one list are such a permutation of places.
-/

namespace ColumnStore

/-- Two runs of an operation that give the same answer and leave related states. -/
structure Alike {α β : Type} (R : β → β → Prop) (result result' : α × β) : Prop where
  answer : result'.1 = result.1
  state : R result.2 result'.2

theorem Alike.exists_eq {α β : Type} {R : β → β → Prop} {result result' : α × β}
    (h : Alike R result result') :
    ∃ a b b', result = (a, b) ∧ result' = (a, b') ∧ R b b' :=
  ⟨result.1, result.2, result'.2, rfl, Prod.ext h.answer rfl, h.state⟩

/-! ## Arrays laid out by slot -/

/-- An array in which every element stands where a permutation of the places sends it. The places
    past the end stay. -/
structure Moved {α : Type} (σ : Equiv.Perm ℕ) (xs ys : Array α) : Prop where
  getElem? : ∀ i, ys[σ i]? = xs[i]?
  fixed : ∀ i, xs.size ≤ i → σ i = i

namespace Moved

variable {α β : Type} {σ : Equiv.Perm ℕ} {xs ys : Array α}

theorem refl (xs : Array α) : Moved 1 xs xs := ⟨fun _ => rfl, fun _ _ => rfl⟩

theorem lt_size_iff (h : Moved σ xs ys) (i : ℕ) : σ i < ys.size ↔ i < xs.size := by
  rw [← not_iff_not, not_lt, not_lt, ← Array.getElem?_eq_none_iff, h.getElem?,
    Array.getElem?_eq_none_iff]

theorem size_eq (h : Moved σ xs ys) : ys.size = xs.size := by
  refine Nat.le_antisymm ?_ ?_
  · by_contra hlt
    have hsize := h.lt_size_iff xs.size
    rw [h.fixed _ le_rfl] at hsize
    omega
  · -- a place past the end of `ys` comes from one past the end of `xs`, which stays
    by_contra hlt
    have hsize := h.lt_size_iff (σ.symm ys.size)
    rw [Equiv.apply_symm_apply] at hsize
    have hfixed := h.fixed (σ.symm ys.size) (by omega)
    rw [Equiv.apply_symm_apply] at hfixed
    omega

/-- Another array moved by the same permutation shows the same elements past the end of this one. -/
theorem getElem?_of_size_le (h : Moved σ xs ys) {zs ws : Array β} (hz : Moved σ zs ws) {i : ℕ}
    (hi : xs.size ≤ i) : ws[i]? = zs[i]? := by
  rw [← hz.getElem?, h.fixed i hi]

theorem mem_iff (h : Moved σ xs ys) {x : α} : x ∈ ys ↔ x ∈ xs := by
  rw [Array.mem_iff_getElem?, Array.mem_iff_getElem?]
  constructor
  · rintro ⟨j, hj⟩
    exact ⟨σ.symm j, by rw [← h.getElem?, Equiv.apply_symm_apply, hj]⟩
  · rintro ⟨i, hi⟩
    exact ⟨σ i, by rw [h.getElem?, hi]⟩

theorem map (h : Moved σ xs ys) (f : α → β) : Moved σ (xs.map f) (ys.map f) where
  getElem? i := by rw [Array.getElem?_map, Array.getElem?_map, h.getElem?]
  fixed i hi := h.fixed i (by rwa [Array.size_map] at hi)

theorem append (h : Moved σ xs ys) (zs : Array α) : Moved σ (xs ++ zs) (ys ++ zs) where
  getElem? i := by
    rw [Array.getElem?_append, Array.getElem?_append, h.size_eq]
    by_cases hi : i < xs.size
    · rw [if_pos hi, if_pos (h.size_eq ▸ (h.lt_size_iff i).mpr hi), h.getElem?]
    · rw [h.fixed i (not_lt.mp hi), if_neg hi, if_neg hi]
  fixed i hi := h.fixed i (by rw [Array.size_append] at hi; omega)

theorem push (h : Moved σ xs ys) (x : α) : Moved σ (xs.push x) (ys.push x) := by
  rw [Array.push_eq_append, Array.push_eq_append]
  exact h.append _

theorem modify (h : Moved σ xs ys) (i : ℕ) (f : α → α) :
    Moved σ (xs.modify i f) (ys.modify (σ i) f) where
  getElem? j := by
    rw [Array.getElem?_modify, Array.getElem?_modify, h.getElem?]
    simp only [σ.apply_eq_iff_eq]
  fixed j hj := h.fixed j (by rwa [Array.size_modify] at hj)

/-- Changing corresponding elements gives the same answer, and corresponding arrays. -/
theorem updateAt (h : Moved σ xs ys) (filler : α) (i : ℕ) (f : α → β × α) :
    Alike (Moved σ) (updateAt filler xs i f) (updateAt filler ys (σ i) f) := by
  by_cases hi : i < xs.size
  · have hi' := (h.lt_size_iff i).mpr hi
    have hsame : ys[σ i] = xs[i] := by
      have hget := h.getElem? i
      rwa [Array.getElem?_eq_getElem hi, Array.getElem?_eq_getElem hi', Option.some_inj] at hget
    rw [updateAt_of_lt _ _ _ _ hi, updateAt_of_lt _ _ _ _ hi', hsame]
    refine ⟨rfl, fun j => ?_, fun j hj => h.fixed j (by rwa [Array.size_set] at hj)⟩
    rw [Array.getElem?_set, Array.getElem?_set, h.getElem?]
    simp only [σ.apply_eq_iff_eq]
  · have hi' := mt (h.lt_size_iff i).mp hi
    rw [updateAt_of_size_le _ _ _ _ (not_lt.mp hi), updateAt_of_size_le _ _ _ _ (not_lt.mp hi')]
    exact ⟨rfl, h⟩

/-- The elements with their places are the same up to the order. -/
theorem zipIdx_perm (h : Moved σ xs ys) :
    ys.toList.zipIdx.Perm (xs.toList.zipIdx.map fun place => (place.1, σ place.2)) := by
  have hnodup : ∀ zs : List α, zs.zipIdx.Nodup := fun zs =>
    List.Nodup.of_map Prod.snd (by rw [List.zipIdx_map_snd]; exact List.nodup_range')
  rw [List.perm_ext_iff_of_nodup (hnodup _) ((hnodup _).map fun p q heq => ?_)]
  · rintro ⟨x, j⟩
    rw [List.mem_map, Schema.mem_zipIdx_iff]
    constructor
    · intro hx
      refine ⟨(x, σ.symm j), ?_, by simp⟩
      rw [Schema.mem_zipIdx_iff, ← h.getElem?, Equiv.apply_symm_apply]
      exact hx
    · rintro ⟨⟨y, i⟩, hmem, heq⟩
      rw [Schema.mem_zipIdx_iff] at hmem
      cases heq
      exact (h.getElem? i).trans hmem
  · simp only [Prod.mk.injEq, σ.apply_eq_iff_eq] at heq
    exact Prod.ext heq.1 heq.2

/-- A name found in the one array leads to the corresponding place in the other, if no name is used
    twice. -/
theorem findIdx? (h : Moved σ xs ys) {key : α → String} (hxs : (xs.toList.map key).Nodup)
    (hys : (ys.toList.map key).Nodup) (name : String) :
    ys.findIdx? (fun x => key x == name) = (xs.findIdx? fun x => key x == name).map σ := by
  cases hfind : xs.findIdx? fun x => key x == name with
  | none =>
    rw [Schema.findIdx?_eq_none_iff] at hfind
    rw [Option.map_none, Schema.findIdx?_eq_none_iff]
    intro hname
    obtain ⟨x, hx, hkey⟩ := List.mem_map.mp hname
    rw [Array.mem_toList_iff, h.mem_iff] at hx
    exact hfind (List.mem_map.mpr ⟨x, Array.mem_toList_iff.mpr hx, hkey⟩)
  | some i =>
    obtain ⟨x, hx, hkey⟩ := (Schema.findIdx?_eq_some_iff hxs).mp hfind
    exact (Schema.findIdx?_eq_some_iff hys).mpr ⟨x, (h.getElem? i).trans hx, hkey⟩

/-- A permutation of the places, moved one place up. -/
def up (σ : Equiv.Perm ℕ) : Equiv.Perm ℕ where
  toFun
    | 0 => 0
    | i + 1 => σ i + 1
  invFun
    | 0 => 0
    | i + 1 => σ.symm i + 1
  left_inv i := by cases i <;> simp
  right_inv i := by cases i <;> simp

/-- Two orders of the same elements are related by a permutation of the places. -/
theorem exists_of_perm {xs ys : List α} (h : xs.Perm ys) :
    ∃ σ : Equiv.Perm ℕ, Moved σ xs.toArray ys.toArray := by
  induction h with
  | nil => exact ⟨1, refl _⟩
  | @cons x xs ys _ ih =>
    obtain ⟨σ, hσ⟩ := ih
    refine ⟨up σ, fun i => ?_, fun i hi => ?_⟩
    · cases i with
      | zero => rfl
      | succ i => simpa [up] using hσ.getElem? i
    · cases i with
      | zero => rfl
      | succ i => exact congrArg (· + 1) (hσ.fixed i (by simpa using hi))
  | swap x y xs =>
    refine ⟨Equiv.swap 0 1, fun i => ?_, fun i hi => ?_⟩
    · match i with
      | 0 => rw [Equiv.swap_apply_left]; rfl
      | 1 => rw [Equiv.swap_apply_right]; rfl
      | i + 2 => rw [Equiv.swap_apply_of_ne_of_ne (by omega) (by omega)]; rfl
    · simp only [List.size_toArray, List.length_cons] at hi
      exact Equiv.swap_apply_of_ne_of_ne (by omega) (by omega)
  | @trans xs ys zs _ _ ih ih' =>
    obtain ⟨σ, hσ⟩ := ih
    obtain ⟨τ, hτ⟩ := ih'
    refine ⟨σ.trans τ, fun i => (hτ.getElem? (σ i)).trans (hσ.getElem? i), fun i hi => ?_⟩
    rw [Equiv.trans_apply, hσ.fixed i hi, hτ.fixed i (by rwa [hσ.size_eq])]

end Moved

/-! ## Arrays of related elements -/

/-- Two arrays whose elements are related place by place. -/
structure Matched {α : Type} (R : α → α → Prop) (xs ys : Array α) : Prop where
  size_eq : ys.size = xs.size
  related : ∀ (i : ℕ) x y, xs[i]? = some x → ys[i]? = some y → R x y

namespace Matched

variable {α β : Type} {R : α → α → Prop} {xs ys : Array α}

theorem refl (hR : ∀ x, R x x) (xs : Array α) : Matched R xs xs :=
  ⟨rfl, fun i x y hx hy => by rw [hx] at hy; cases hy; exact hR x⟩

theorem getElem?_cases (h : Matched R xs ys) (i : ℕ) :
    xs[i]? = none ∧ ys[i]? = none ∨ ∃ x y, xs[i]? = some x ∧ ys[i]? = some y ∧ R x y := by
  rcases Nat.lt_or_ge i xs.size with hi | hi
  · have hx := Array.getElem?_eq_getElem hi
    have hy := Array.getElem?_eq_getElem (h.size_eq ▸ hi)
    exact Or.inr ⟨_, _, hx, hy, h.related i _ _ hx hy⟩
  · exact Or.inl ⟨Array.getElem?_eq_none hi, Array.getElem?_eq_none (h.size_eq ▸ hi)⟩

theorem map (h : Matched R xs ys) {S : β → β → Prop} {f g : α → β}
    (hfg : ∀ x y, R x y → S (f x) (g y)) : Matched S (xs.map f) (ys.map g) := by
  refine ⟨by rw [Array.size_map, Array.size_map, h.size_eq], fun i x y hx hy => ?_⟩
  rw [Array.getElem?_map, Option.map_eq_some_iff] at hx hy
  obtain ⟨x, hx, rfl⟩ := hx
  obtain ⟨y, hy, rfl⟩ := hy
  exact hfg x y (h.related i x y hx hy)

/-- What is read off related elements in the same way makes the same list. -/
theorem map_eq (h : Matched R xs ys) {f g : α → β} (hfg : ∀ x y, R x y → f x = g y) :
    ys.toList.map g = xs.toList.map f := by
  refine List.ext_getElem? fun i => ?_
  rw [List.getElem?_map, List.getElem?_map, Array.getElem?_toList, Array.getElem?_toList]
  rcases h.getElem?_cases i with ⟨hx, hy⟩ | ⟨x, y, hx, hy, hxy⟩
  · rw [hx, hy]
    rfl
  · rw [hx, hy, Option.map_some, Option.map_some, hfg x y hxy]

theorem push (h : Matched R xs ys) {x y : α} (hxy : R x y) : Matched R (xs.push x) (ys.push y) := by
  refine ⟨by rw [Array.size_push, Array.size_push, h.size_eq], fun i x' y' hx hy => ?_⟩
  rw [Array.getElem?_push] at hx hy
  rw [h.size_eq] at hy
  split_ifs at hx hy with hi
  · cases hx
    cases hy
    exact hxy
  · exact h.related i x' y' hx hy

theorem set (h : Matched R xs ys) (i : ℕ) (hi : i < xs.size) (hi' : i < ys.size) {x y : α}
    (hxy : R x y) : Matched R (xs.set i x hi) (ys.set i y hi') := by
  refine ⟨by rw [Array.size_set, Array.size_set, h.size_eq], fun j x' y' hx hy => ?_⟩
  rw [Array.getElem?_set] at hx hy
  split_ifs at hx hy
  · cases hx
    cases hy
    exact hxy
  · exact h.related j x' y' hx hy

theorem setIfInBounds (h : Matched R xs ys) (i : ℕ) {x y : α} (hxy : R x y) :
    Matched R (xs.setIfInBounds i x) (ys.setIfInBounds i y) := by
  by_cases hi : i < xs.size
  · have hi' : i < ys.size := h.size_eq ▸ hi
    rw [Array.setIfInBounds_def, dif_pos hi, Array.setIfInBounds_def, dif_pos hi']
    exact h.set i hi hi' hxy
  · have hi' : ¬i < ys.size := h.size_eq ▸ hi
    rw [Array.setIfInBounds_def, dif_neg hi, Array.setIfInBounds_def, dif_neg hi']
    exact h

/-- Changing the elements in one place. -/
theorem updateAt (h : Matched R xs ys) (filler : α) (i : ℕ) {f g : α → β × α}
    (hfg : ∀ x y, R x y → Alike R (f x) (g y)) :
    Alike (Matched R) (updateAt filler xs i f) (updateAt filler ys i g) := by
  rcases Nat.lt_or_ge i xs.size with hi | hi
  · have hi' : i < ys.size := h.size_eq ▸ hi
    obtain ⟨hanswer, hstate⟩ := hfg _ _ (h.related i _ _ (Array.getElem?_eq_getElem hi)
      (Array.getElem?_eq_getElem hi'))
    rw [updateAt_of_lt _ _ _ _ hi, updateAt_of_lt _ _ _ _ hi']
    exact ⟨congrArg some hanswer, h.set i hi hi' hstate⟩
  · rw [updateAt_of_size_le _ _ _ _ hi, updateAt_of_size_le _ _ _ _ (h.size_eq ▸ hi)]
    exact ⟨rfl, h⟩

end Matched

/-! ## Schemas -/

/-- A permutation of the slots of the columns and one of the slots of the indexes. -/
structure Relabelling where
  column : Equiv.Perm ℕ
  index : Equiv.Perm ℕ

namespace Relabelling

/-- Every slot stays. -/
def refl : Relabelling := ⟨1, 1⟩

variable (r : Relabelling)

/-- Where a slot goes. -/
def slot : Slot → Slot
  | .column slot => .column (r.column slot)
  | .index slot => .index (r.index slot)

/-- A column, or what belongs to one, with its slot. -/
def columnAt {α : Type} (place : ℕ × α) : ℕ × α := (r.column place.1, place.2)

/-- An index whose source goes to another slot. -/
def moveSource (index : Index) : Index := { index with sourceSlot := r.column index.sourceSlot }

/-- An index with its slot. -/
def indexAt (place : ℕ × Index) : ℕ × Index := (r.index place.1, r.moveSource place.2)

end Relabelling

namespace Schema

/-- Two schemas with the same columns and indexes in other slots. -/
structure Relabelled (r : Relabelling) (schema schema' : Schema) : Prop where
  wellFormed : schema.WellFormed
  wellFormed' : schema'.WellFormed
  columns : Moved r.column schema.columns schema'.columns
  indexes : Moved r.index (schema.indexes.map r.moveSource) schema'.indexes

variable {r : Relabelling} {schema schema' : Schema}

theorem Relabelled.refl (h : schema.WellFormed) : Relabelled .refl schema schema :=
  ⟨h, h, .refl _, by
    rw [show schema.indexes.map Relabelling.refl.moveSource = schema.indexes from Array.map_id _]
    exact .refl _⟩

namespace Relabelled

theorem columns_size (h : Relabelled r schema schema') :
    schema'.columns.size = schema.columns.size := h.columns.size_eq

theorem indexes_size (h : Relabelled r schema schema') :
    schema'.indexes.size = schema.indexes.size :=
  h.indexes.size_eq.trans (Array.size_map ..)

theorem column_getElem? (h : Relabelled r schema schema') (slot : ℕ) :
    schema'.columns[r.column slot]? = schema.columns[slot]? := h.columns.getElem? slot

theorem index_getElem? (h : Relabelled r schema schema') (slot : ℕ) :
    schema'.indexes[r.index slot]? = schema.indexes[slot]?.map r.moveSource :=
  (h.indexes.getElem? slot).trans (Array.getElem?_map ..)

/-! ### Looking names up -/

theorem columnSlot? (h : Relabelled r schema schema') (name : String) :
    schema'.columnSlot? name = (schema.columnSlot? name).map r.column :=
  h.columns.findIdx? h.wellFormed.columns_nodup h.wellFormed'.columns_nodup name

theorem map_name_moveSource (r : Relabelling) (indexes : Array Index) :
    (indexes.map r.moveSource).toList.map Index.name = indexes.toList.map Index.name := by
  rw [Array.toList_map, List.map_map]
  rfl

theorem indexSlot? (h : Relabelled r schema schema') (name : String) :
    schema'.indexSlot? name = (schema.indexSlot? name).map r.index := by
  have hnodup : ((schema.indexes.map r.moveSource).toList.map Index.name).Nodup := by
    rw [map_name_moveSource]
    exact h.wellFormed.indexes_nodup
  have hfind := h.indexes.findIdx? hnodup h.wellFormed'.indexes_nodup name
  rwa [Array.findIdx?_map] at hfind

theorem lookup (h : Relabelled r schema schema') (name : String) :
    schema'.lookup name = (schema.lookup name).map r.slot := by
  unfold Schema.lookup
  rw [h.columnSlot?, h.indexSlot?]
  cases schema.columnSlot? name with
  | some slot => rfl
  | none => cases schema.indexSlot? name <;> rfl

theorem column? (h : Relabelled r schema schema') (name : String) :
    schema'.column? name = (schema.column? name).map r.columnAt := by
  unfold Schema.column?
  rw [h.columnSlot?]
  cases schema.columnSlot? name with
  | none => rfl
  | some slot =>
    simp only [Option.map_some, Option.bind_eq_bind, Option.bind_some, h.column_getElem?]
    cases schema.columns[slot]? <;> rfl

theorem index? (h : Relabelled r schema schema') (name : String) :
    schema'.index? name = (schema.index? name).map r.indexAt := by
  unfold Schema.index?
  rw [h.indexSlot?]
  cases schema.indexSlot? name with
  | none => rfl
  | some slot =>
    simp only [Option.map_some, Option.bind_eq_bind, Option.bind_some, h.index_getElem?]
    cases schema.indexes[slot]? <;> rfl

theorem isTaken (h : Relabelled r schema schema') (name : String) :
    schema'.isTaken name = schema.isTaken name := by
  rw [Schema.isTaken, h.lookup, Option.isSome_map]
  rfl

/-! ### All columns and indexes -/

/-- Corresponding columns have corresponding indexes over them. -/
theorem indexesOn_perm (h : Relabelled r schema schema') (source : ℕ) :
    (schema'.indexesOn (r.column source)).Perm ((schema.indexesOn source).map r.indexAt) := by
  have hperm := h.indexes.zipIdx_perm
  rw [Array.toList_map, List.zipIdx_map, List.map_map] at hperm
  have hmoved := (hperm.map Prod.swap).filter fun place => place.2.sourceSlot = r.column source
  rw [List.map_map] at hmoved
  refine hmoved.trans (List.Perm.of_eq ?_)
  rw [Schema.indexesOn, List.filter_map, List.filter_map, List.map_map]
  refine congrArg (List.map _) (List.filter_congr fun place _ => ?_)
  exact decide_eq_decide.mpr r.column.apply_eq_iff_eq

end Relabelled

end Schema

end ColumnStore
