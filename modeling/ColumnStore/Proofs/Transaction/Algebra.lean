import ColumnStore.Proofs.Transaction.Filter

/-!
# The algebra of filters

A filter that is not refused decides on each selected offset by itself and keeps the length of every
bitmap (`Masks`, `Narrows.masks`), whatever else was selected or taken out. So filters commute and
repeating one changes nothing, on the stored bitmaps and not only on the rows they stand for.

`Transaction.refine` is a transaction after a filter that may be refused. Results:

* `refineAll_eq_of_mem_iff`: what a list of filters leaves depends only on which filters are in it;
* `refineAll_select_flatten`: one filter over names that are all known leaves what filters over
  parts of its names leave in a row.
-/

namespace ColumnStore

/-! ## Folds that depend on the set of steps -/

section Fold

variable {α β : Type} {f : β → α → β}

theorem foldl_cons_of_mem (hcomm : ∀ b x y, f (f b x) y = f (f b y) x)
    (hrepeat : ∀ b x, f (f b x) x = f b x) {x : α} {xs : List α} (h : x ∈ xs) (b : β) :
    (x :: xs).foldl f b = xs.foldl f b := by
  obtain ⟨before, after, rfl⟩ := List.append_of_mem h
  have hfront : (before ++ x :: after).Perm (x :: (before ++ after)) := List.perm_middle
  have hswap : ∀ {xs ys : List α}, xs.Perm ys → xs.foldl f b = ys.foldl f b := fun hperm =>
    hperm.foldl_eq' (fun x _ y _ b => hcomm b x y) b
  calc (x :: (before ++ x :: after)).foldl f b
      = (x :: x :: (before ++ after)).foldl f b := hswap (hfront.cons x)
    _ = (x :: (before ++ after)).foldl f b := by
      rw [List.foldl_cons, List.foldl_cons, hrepeat, List.foldl_cons]
    _ = (before ++ x :: after).foldl f b := (hswap hfront).symm

theorem foldl_append_of_subset (hcomm : ∀ b x y, f (f b x) y = f (f b y) x)
    (hrepeat : ∀ b x, f (f b x) x = f b x) {xs ys : List α} (h : xs ⊆ ys) (b : β) :
    (xs ++ ys).foldl f b = ys.foldl f b := by
  induction xs with
  | nil => rfl
  | cons x rest ih =>
    rw [List.cons_subset] at h
    rw [List.cons_append, foldl_cons_of_mem hcomm hrepeat (List.mem_append_right rest h.1), ih h.2]

/-- Steps that commute, and that change nothing when repeated, come to the same in any order and
    number. -/
theorem foldl_eq_of_mem_iff (hcomm : ∀ b x y, f (f b x) y = f (f b y) x)
    (hrepeat : ∀ b x, f (f b x) x = f b x) {xs ys : List α} (h : ∀ x, x ∈ xs ↔ x ∈ ys) (b : β) :
    xs.foldl f b = ys.foldl f b := by
  calc xs.foldl f b
      = (ys ++ xs).foldl f b :=
        (foldl_append_of_subset hcomm hrepeat (fun x => (h x).mpr) b).symm
    _ = (xs ++ ys).foldl f b :=
        List.perm_append_comm.foldl_eq' (fun x _ y _ b => hcomm b x y) b
    _ = ys.foldl f b := foldl_append_of_subset hcomm hrepeat (fun x => (h x).mp) b

end Fold

namespace Transaction

/-! ## Masks -/

/-- A filter of chunks that keeps the length of a bitmap and decides on each offset by itself. -/
def Masks (judge : Chunk → Bitmap → Bitmap) : Prop :=
  ∀ chunk, ∃ keep : Nat → Bool, ∀ bits,
    (judge chunk bits).words.size = bits.words.size ∧
      ∀ offset, (judge chunk bits).contains offset = (bits.contains offset && keep offset)

namespace Masks

variable {judge judge' : Chunk → Bitmap → Bitmap}

theorem comm (h : Masks judge) (h' : Masks judge') (chunk : Chunk) (bits : Bitmap) :
    judge' chunk (judge chunk bits) = judge chunk (judge' chunk bits) := by
  obtain ⟨keep, hkeep⟩ := h chunk
  obtain ⟨keep', hkeep'⟩ := h' chunk
  apply Bitmap.ext_contains
  · rw [(hkeep' _).1, (hkeep _).1, (hkeep _).1, (hkeep' _).1]
  · intro offset
    rw [(hkeep' _).2, (hkeep _).2, (hkeep _).2, (hkeep' _).2, Bool.and_right_comm]

theorem repeated (h : Masks judge) (chunk : Chunk) (bits : Bitmap) :
    judge chunk (judge chunk bits) = judge chunk bits := by
  obtain ⟨keep, hkeep⟩ := h chunk
  apply Bitmap.ext_contains
  · rw [(hkeep _).1]
  · intro offset
    rw [(hkeep _).2, (hkeep _).2, Bool.and_assoc, Bool.and_self]

theorem nothing : Masks fun _ bits => bits :=
  fun _ => ⟨fun _ => true, fun _ => ⟨rfl, fun _ => (Bool.and_true _).symm⟩⟩

theorem comp (h : Masks judge) (h' : Masks judge') :
    Masks fun chunk bits => judge' chunk (judge chunk bits) := by
  intro chunk
  obtain ⟨keep, hkeep⟩ := h chunk
  obtain ⟨keep', hkeep'⟩ := h' chunk
  refine ⟨fun offset => keep offset && keep' offset, fun bits => ⟨?_, fun offset => ?_⟩⟩
  · rw [(hkeep' _).1, (hkeep _).1]
  · rw [(hkeep' _).2, (hkeep _).2, Bool.and_assoc]

end Masks

/-- A selector intersects with what it selects. A chunk that is older than the selector has nothing
    for it, and the bitmap is emptied. -/
theorem masks_select (slot : Slot) : Masks fun chunk bits => chunk.select slot bits := by
  intro chunk
  refine ⟨fun offset => (chunk.selected slot).any fun sel => sel.contains offset,
    fun bits => ⟨?_, contains_select chunk slot bits⟩⟩
  show (chunk.select slot bits).words.size = _
  rw [Chunk.select]
  cases chunk.selected slot with
  | none => exact Bitmap.size_reset bits
  | some sel => exact Bitmap.size_and bits sel

theorem masks_resolved (slots : List Slot) :
    Masks fun chunk bits => slots.foldl (fun bits slot => chunk.select slot bits) bits := by
  induction slots with
  | nil => exact Masks.nothing
  | cons slot rest ih => exact (masks_select slot).comp ih

theorem masks_filterColumn (slot : Nat) (keepCell : Option Cell → Bool)
    {filter : Segment → Bitmap → Bitmap} (hnone : keepCell none = false)
    (hsize : ∀ (s : Segment) bits, (filter s bits).words.size = bits.words.size)
    (hfilter : ∀ (s : Segment) bits offset, (filter s bits).contains offset =
      (bits.contains offset && keepCell (s.cell? offset))) :
    Masks fun chunk => chunk.filterColumn slot filter := by
  intro chunk
  refine ⟨fun offset => keepCell (chunk.cell? slot offset),
    fun bits => ⟨?_, contains_filterColumn hnone hfilter bits⟩⟩
  show (chunk.filterColumn slot filter bits).words.size = _
  rw [Chunk.filterColumn]
  cases chunk.columns[slot]? with
  | none => exact Bitmap.size_reset bits
  | some s => exact hsize s bits

theorem masks_filterValue (slot : Nat) (dictionary : Dictionary) (f : Value → Bool) :
    Masks fun chunk => chunk.filterColumn slot fun s => s.filterValue dictionary f :=
  masks_filterColumn slot (fun cell => cell.any fun cell => f (Column.decode dictionary cell)) rfl
    (fun s bits => s.size_filterValue dictionary f bits)
    fun s bits => s.contains_filterValue dictionary f bits

/-- Every filter that is not refused narrows by a mask. -/
theorem Narrows.masks {schema : Schema} {table : Table} {filter : Filter}
    {judge : Chunk → Bitmap → Bitmap} (h : Narrows schema table filter judge) : Masks judge := by
  cases h with
  | select hslots => exact masks_resolved _
  | numbers hcolumn hkind f =>
    exact masks_filterColumn _ (fun cell => (cell.bind Cell.number?).any f) rfl
      (fun s bits => s.size_filterFloat f bits) fun s bits => s.contains_filterFloat f bits
  | ids hcolumn hkind f =>
    exact masks_filterColumn _ (fun cell => (cell.bind Cell.id?).any _) rfl
      (fun s bits => s.size_filterEnum _ bits) fun s bits => s.contains_filterEnum _ bits
  | texts hcolumn hkind f => exact masks_filterValue _ _ _
  | values hcolumn f => exact masks_filterValue _ _ _

/-! ## Narrowing twice -/

variable {t : Transaction} {c : Collection}

theorem narrow_narrow (t : Transaction) (table : Table) (judge judge' : Chunk → Bitmap → Bitmap) :
    (t.narrow table judge).narrow table judge' =
      t.narrow table fun chunk bits => judge' chunk (judge chunk bits) := by
  simp only [narrow, Array.mapIdx_mapIdx]
  congr 2
  funext id bits
  simp only [Function.comp]
  cases table.chunks[id]? <;> rfl

theorem narrow_nothing (t : Transaction) (table : Table) :
    t.narrow table (fun _ bits => bits) = t := by
  obtain ⟨generation, schema, selection⟩ := t
  unfold narrow
  congr 1
  refine Array.ext_getElem? fun id => ?_
  rw [Array.getElem?_mapIdx]
  cases table.chunks[id]? <;> exact Option.map_id' ..

/-! ## Filters that may be refused -/

/-- Why the transaction refuses a filter. -/
def fault? (t : Transaction) (filter : Filter) : Option Error :=
  filter.fault? t.schema.columns.toList (t.schema.indexes.toList.map Index.name)

/-- The transaction after a filter, as it was if the filter is refused. -/
def refine (c : Collection) (t : Transaction) (filter : Filter) : Transaction :=
  (filter.apply t c).toOption.getD t

/-- The transaction after filters in order. -/
def refineAll (c : Collection) (t : Transaction) (filters : List Filter) : Transaction :=
  filters.foldl (refine c) t

theorem refine_of_fine {filter : Filter} (h : t.fault? filter = none) (c : Collection) :
    ∃ judge, Masks judge ∧ ∀ selection,
      refine c { t with selection } filter = { t with selection }.narrow (t.table c) judge := by
  obtain ⟨judge, hnarrows, happly⟩ := exists_narrows h c
  refine ⟨judge, hnarrows.masks, fun selection => ?_⟩
  rw [refine, happly]
  rfl

theorem refine_of_fault {filter : Filter} {e : Error} (h : t.fault? filter = some e)
    (c : Collection) : refine c t filter = t := by
  rw [refine, apply_of_fault h]
  rfl

/-- A filter takes offsets out of the selection and changes nothing else. -/
theorem exists_selection_refine (c : Collection) (t : Transaction) (filter : Filter) :
    ∃ selection, refine c t filter = { t with selection } := by
  cases h : t.fault? filter with
  | some e => exact ⟨t.selection, refine_of_fault h c⟩
  | none =>
    obtain ⟨judge, -, hrefine⟩ := refine_of_fine h c
    exact ⟨_, hrefine t.selection⟩

theorem schema_refineAll (c : Collection) (t : Transaction) (filters : List Filter) :
    (refineAll c t filters).schema = t.schema := by
  induction filters generalizing t with
  | nil => rfl
  | cons filter rest ih =>
    obtain ⟨selection, hsame⟩ := exists_selection_refine c t filter
    rw [refineAll, List.foldl_cons, ← refineAll, ih, hsame]

/-- Filters commute, whether they are refused or not. -/
theorem refine_comm (c : Collection) (t : Transaction) (filter filter' : Filter) :
    refine c (refine c t filter) filter' = refine c (refine c t filter') filter := by
  -- what is refused is settled by the schema, which filters keep
  have hrefused : ∀ {f : Filter} {e : Error}, t.fault? f = some e → ∀ other,
      refine c (refine c t other) f = refine c t other := by
    intro f e h other
    obtain ⟨selection, hsame⟩ := exists_selection_refine c t other
    rw [hsame]
    exact refine_of_fault (t := { t with selection }) h c
  cases h : t.fault? filter with
  | some e => rw [refine_of_fault h, hrefused h]
  | none =>
    cases h' : t.fault? filter' with
    | some e => rw [refine_of_fault h', hrefused h']
    | none =>
      obtain ⟨judge, hmasks, hrefine⟩ := refine_of_fine h c
      obtain ⟨judge', hmasks', hrefine'⟩ := refine_of_fine h' c
      calc refine c (refine c t filter) filter'
          = refine c (t.narrow (t.table c) judge) filter' := by rw [← hrefine t.selection]
        _ = (t.narrow (t.table c) judge).narrow (t.table c) judge' := hrefine' _
        _ = (t.narrow (t.table c) judge').narrow (t.table c) judge := by
          rw [narrow_narrow, narrow_narrow]
          simp only [hmasks.comm hmasks']
        _ = refine c (t.narrow (t.table c) judge') filter := (hrefine _).symm
        _ = refine c (refine c t filter') filter := by rw [← hrefine' t.selection]

/-- A filter that is repeated changes nothing. -/
theorem refine_repeated (c : Collection) (t : Transaction) (filter : Filter) :
    refine c (refine c t filter) filter = refine c t filter := by
  cases h : t.fault? filter with
  | some e => rw [refine_of_fault h, refine_of_fault h]
  | none =>
    obtain ⟨judge, hmasks, hrefine⟩ := refine_of_fine h c
    have honce : refine c t filter = t.narrow (t.table c) judge := hrefine t.selection
    calc refine c (refine c t filter) filter
        = refine c (t.narrow (t.table c) judge) filter := by rw [honce]
      _ = (t.narrow (t.table c) judge).narrow (t.table c) judge := hrefine _
      _ = t.narrow (t.table c) judge := by
        rw [narrow_narrow]
        simp only [hmasks.repeated]
      _ = refine c t filter := honce.symm

/-- What a list of filters leaves depends only on which filters are in it. -/
theorem refineAll_eq_of_mem_iff (c : Collection) (t : Transaction) {filters filters' : List Filter}
    (h : ∀ filter, filter ∈ filters ↔ filter ∈ filters') :
    refineAll c t filters = refineAll c t filters' :=
  foldl_eq_of_mem_iff (refine_comm c) (refine_repeated c) h t

/-! ## Names in one filter and in several -/

theorem resolve_append {schema : Schema} {names more : List String} {slots : List Slot}
    (h : resolve schema (names ++ more) = .ok slots) :
    ∃ slots₁ slots₂, resolve schema names = .ok slots₁ ∧ resolve schema more = .ok slots₂ ∧
      slots = slots₁ ++ slots₂ := by
  induction names generalizing slots with
  | nil => exact ⟨[], slots, rfl, h, rfl⟩
  | cons name rest ih =>
    rw [List.cons_append, resolve] at h
    cases hlookup : schema.lookup name with
    | none => simp [hlookup] at h
    | some slot =>
      simp only [hlookup] at h
      cases hrest : resolve schema (rest ++ more) with
      | error e =>
        rw [hrest] at h
        cases h
      | ok others =>
        rw [hrest] at h
        cases h
        obtain ⟨slots₁, slots₂, h₁, h₂, rfl⟩ := ih hrest
        refine ⟨slot :: slots₁, slots₂, ?_, h₂, rfl⟩
        simp only [resolve, hlookup, h₁]
        rfl

theorem refine_select {names : List String} {slots : List Slot}
    (h : resolve t.schema names = .ok slots) (c : Collection) :
    refine c t (.select names) = t.narrow (t.table c) fun chunk bits =>
      slots.foldl (fun bits slot => chunk.select slot bits) bits := by
  simp only [refine, Filter.apply, Transaction.select, h]
  rfl

/-- Names that are all known can be asked for at once or in parts. -/
theorem refineAll_select_flatten (c : Collection) (t : Transaction) {groups : List (List String)}
    {slots : List Slot} (h : resolve t.schema groups.flatten = .ok slots) :
    refineAll c t (groups.map .select) = refine c t (.select groups.flatten) := by
  induction groups generalizing t slots with
  | nil =>
    rw [refine_select h]
    cases h
    exact (narrow_nothing t (t.table c)).symm
  | cons names rest ih =>
    obtain ⟨slots₁, slots₂, h₁, h₂, rfl⟩ := resolve_append h
    have hstep : refine c t (.select names) = _ := refine_select h₁ c
    calc refineAll c t ((names :: rest).map .select)
        = refineAll c (refine c t (.select names)) (rest.map .select) := rfl
      _ = refine c (refine c t (.select names)) (.select rest.flatten) := by
        rw [hstep]
        exact ih (t.narrow (t.table c) _) h₂
      _ = refine c t (.select (names :: rest).flatten) := by
        rw [hstep, refine_select h]
        refine (refine_select (t := t.narrow (t.table c) _) h₂ c).trans ?_
        exact (narrow_narrow ..).trans (by simp only [List.foldl_append])

end Transaction

end ColumnStore
