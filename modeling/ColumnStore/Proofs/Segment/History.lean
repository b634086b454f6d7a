import ColumnStore.Proofs.Segment

/-!
# Segments over a history of changes

A segment is changed by writing a cell, by clearing an offset and by growing. `Segment.run` makes
changes one after another, where one that fails leaves the segment as it was, and `Segment.log`
lists them with their answers. `Segment.LastSet` says what the log alone tells about an offset: the
cell of the last accepted write that nothing has replaced or cleared since.

* `WellFormed.make`, `WellFormed.cell?_make`: what one change does;
* `WellFormed.run`, `WellFormed.cell?_run`: what a run does, by induction on the changes;
* `last_write_wins`: a segment run from empty is the map that its log describes.
-/

namespace ColumnStore

namespace Segment

/-- A change of a segment. -/
inductive Change where
  | setAt (offset : Nat) (cell : Cell)
  | clearAt (offset : Nat)
  | grow (capacity : Nat)

namespace Change

/-- The capacity that a change grows the segment to. -/
def grownTo? : Change → Option Nat
  | grow capacity => some capacity
  | _ => none

/-- The segment after a change. -/
def apply (s : Segment) : Change → Except Error Segment
  | setAt offset cell => s.setAt offset cell
  | clearAt offset => s.clearAt offset
  | grow capacity => .ok (s.grow capacity)

end Change

/-- Whether a change succeeds. -/
def answer (s : Segment) (change : Change) : Except Error Unit :=
  (change.apply s).map fun _ => ()

/-- The segment after a change, which stays as it is if the change fails. -/
def make (s : Segment) (change : Change) : Segment :=
  match change.apply s with
  | .ok s' => s'
  | .error _ => s

/-- The segment after changes, made in order. -/
def run (s : Segment) (changes : List Change) : Segment := changes.foldl make s

/-- The changes with the answer to each. -/
def log (s : Segment) : List Change → List (Change × Except Error Unit)
  | [] => []
  | change :: changes => (change, s.answer change) :: (s.make change).log changes

/-- The changes of a log that succeeded. -/
def accepted (log : List (Change × Except Error Unit)) : List Change :=
  log.filterMap fun entry => if entry.2.isOk then some entry.1 else none

/-- The entry is a successful write at the offset, or clears it. -/
def Supersedes (offset : Nat) : Change × Except Error Unit → Prop
  | (.setAt written _, answer) => written = offset ∧ answer = .ok ()
  | (.clearAt cleared, _) => cleared = offset
  | (.grow _, _) => False

/-- The last successful write at the offset wrote the cell, and the offset was not cleared since. -/
def LastSet (log : List (Change × Except Error Unit)) (offset : Nat) (cell : Cell) : Prop :=
  ∃ before after, log = before ++ (.setAt offset cell, .ok ()) :: after ∧
    ∀ entry ∈ after, ¬Supersedes offset entry

theorem not_lastSet_nil (offset : Nat) (cell : Cell) : ¬LastSet [] offset cell := by
  rintro ⟨before, after, heq, -⟩
  simp at heq

/-- The last write of a log is the one of its tail, or the first entry where nothing follows. -/
theorem lastSet_cons {entry : Change × Except Error Unit}
    {log : List (Change × Except Error Unit)} {offset : Nat} {cell : Cell} :
    LastSet (entry :: log) offset cell ↔
      LastSet log offset cell ∨
        (entry = (.setAt offset cell, .ok ()) ∧ ∀ later ∈ log, ¬Supersedes offset later) := by
  constructor
  · rintro ⟨before, after, heq, hafter⟩
    rcases before with _ | ⟨first, before⟩
    · obtain ⟨rfl, rfl⟩ := List.cons.inj heq
      exact .inr ⟨rfl, hafter⟩
    · obtain ⟨rfl, rfl⟩ := List.cons.inj heq
      exact .inl ⟨before, after, rfl, hafter⟩
  · rintro (⟨before, after, rfl, hafter⟩ | ⟨rfl, hlog⟩)
    · exact ⟨entry :: before, after, rfl, hafter⟩
    · exact ⟨[], log, rfl, hlog⟩

/-! ## One change -/

variable {kind : Kind} {capacity : Nat} {s : Segment}

theorem make_of_ok {change : Change} {s' : Segment} (h : change.apply s = .ok s') :
    s.answer change = .ok () ∧ s.make change = s' := by
  rw [answer, make, h]
  exact ⟨rfl, rfl⟩

theorem make_of_error {change : Change} {e : Error} (h : change.apply s = .error e) :
    s.answer change = .error e ∧ s.make change = s := by
  rw [answer, make, h]
  exact ⟨rfl, rfl⟩

/-- A write is refused past the capacity, else for a cell of another kind. -/
theorem WellFormed.apply_setAt (hs : s.WellFormed kind capacity) (offset : Nat) (cell : Cell) :
    (Change.setAt offset cell).apply s =
      if offset < capacity then
        if cell.kind = kind then .ok (s.put offset cell)
        else .error (.typeMismatch "" kind.name cell.kind.name)
      else .error (.outOfRange offset capacity) := by
  rw [Change.apply, setAt, checkPut, checkRange, hs.capacity_eq, hs.kind_eq]
  split_ifs <;> rfl

theorem WellFormed.apply_clearAt (hs : s.WellFormed kind capacity) (offset : Nat) :
    (Change.clearAt offset).apply s =
      if offset < capacity then .ok (s.remove offset)
      else .error (.outOfRange offset capacity) := by
  rw [Change.apply, clearAt, checkRange, hs.capacity_eq]
  split_ifs <;> rfl

theorem WellFormed.cell?_of_le (hs : s.WellFormed kind capacity) {offset : Nat}
    (hle : capacity ≤ offset) : s.cell? offset = none := by
  refine cell?_of_not_isPresent (Bool.eq_false_iff.mpr fun hpresent => ?_)
  exact absurd (hs.presence.lt offset hpresent) (by omega)

/-- The capacity after a change. -/
def Change.room (capacity : Nat) (change : Change) : Nat :=
  (change.grownTo?.map (max capacity)).getD capacity

theorem WellFormed.make (hs : s.WellFormed kind capacity) (change : Change) :
    (s.make change).WellFormed kind (change.room capacity) := by
  cases change with
  | grow capacity' =>
    show (s.grow capacity').WellFormed kind (max capacity capacity')
    rcases le_total capacity capacity' with hle | hle
    · rw [max_eq_right hle]
      exact hs.grow hle
    · rw [max_eq_left hle, Segment.grow, if_pos (hle.trans_eq hs.capacity_eq.symm)]
      exact hs
  | setAt offset cell =>
    show (s.make _).WellFormed kind capacity
    rw [Segment.make, hs.apply_setAt]
    split_ifs with hlt hkind
    · exact hs.put hlt cell
    · exact hs
    · exact hs
  | clearAt offset =>
    show (s.make _).WellFormed kind capacity
    rw [Segment.make, hs.apply_clearAt]
    split_ifs with hlt
    · exact hs.remove offset
    · exact hs

/-- What an offset holds after a change: the cell of an accepted write there, else what it held
    before, unless the change clears it. -/
theorem WellFormed.cell?_make (hs : s.WellFormed kind capacity) (change : Change) (offset : Nat)
    (cell : Cell) :
    (s.make change).cell? offset = some cell ↔
      (change, s.answer change) = (.setAt offset cell, .ok ()) ∨
        (s.cell? offset = some cell ∧ ¬Supersedes offset (change, s.answer change)) := by
  cases change with
  | grow capacity' =>
    show (s.grow capacity').cell? offset = some cell ↔ _
    rw [hs.cell?_grow]
    simp [Supersedes]
  | setAt written x =>
    have happly := hs.apply_setAt written x
    split_ifs at happly with hlt hkind
    · obtain ⟨hanswer, hmake⟩ := make_of_ok happly
      rw [hmake, hs.cell?_put hlt hkind, hanswer]
      by_cases heq : written = offset
      · simp [Supersedes, heq]
      · simp [Supersedes, heq]
    · obtain ⟨hanswer, hmake⟩ := make_of_error happly
      rw [hmake, hanswer]
      simp [Supersedes]
    · obtain ⟨hanswer, hmake⟩ := make_of_error happly
      rw [hmake, hanswer]
      simp [Supersedes]
  | clearAt cleared =>
    have happly := hs.apply_clearAt cleared
    split_ifs at happly with hlt
    · obtain ⟨-, hmake⟩ := make_of_ok happly
      rw [hmake, cell?_remove]
      by_cases heq : cleared = offset
      · simp [Supersedes, heq]
      · simp [Supersedes, heq]
    · -- the offset of a refused clear holds nothing
      obtain ⟨-, hmake⟩ := make_of_error happly
      have hnone := hs.cell?_of_le (not_lt.mp hlt)
      rw [hmake]
      by_cases heq : cleared = offset
      · simp [Supersedes, ← heq, hnone]
      · simp [Supersedes, heq]

/-! ## Runs -/

/-- The largest of a capacity and those that changes grow to. -/
def roomAfter (capacity : Nat) (changes : List Change) : Nat :=
  (changes.filterMap Change.grownTo?).foldl max capacity

theorem roomAfter_cons (capacity : Nat) (change : Change) (changes : List Change) :
    roomAfter capacity (change :: changes) = roomAfter (change.room capacity) changes := by
  cases change <;> rfl

theorem WellFormed.run (hs : s.WellFormed kind capacity) (changes : List Change) :
    (s.run changes).WellFormed kind (roomAfter capacity changes) := by
  induction changes generalizing s capacity with
  | nil => exact hs
  | cons change changes ih =>
    rw [roomAfter_cons]
    exact ih (hs.make change)

/-- What an offset holds after a run: the cell of the last accepted write there, or what it held
    before the run if no entry of the log replaces or clears it. -/
theorem WellFormed.cell?_run (hs : s.WellFormed kind capacity) (changes : List Change)
    (offset : Nat) (cell : Cell) :
    (s.run changes).cell? offset = some cell ↔
      LastSet (s.log changes) offset cell ∨
        (s.cell? offset = some cell ∧ ∀ entry ∈ s.log changes, ¬Supersedes offset entry) := by
  induction changes generalizing s capacity with
  | nil => simp [Segment.run, log, not_lastSet_nil]
  | cons change changes ih =>
    show ((s.make change).run changes).cell? offset = some cell ↔ _
    rw [ih (hs.make change), hs.cell?_make, log, lastSet_cons]
    simp only [List.forall_mem_cons]
    tauto

/-- The changes that fail could as well not have been made. -/
theorem run_accepted (s : Segment) (changes : List Change) :
    s.run (accepted (s.log changes)) = s.run changes := by
  induction changes generalizing s with
  | nil => rfl
  | cons change changes ih =>
    show s.run (accepted ((change, s.answer change) :: (s.make change).log changes)) =
      (s.make change).run changes
    rw [← ih]
    cases happly : change.apply s with
    | ok s' =>
      obtain ⟨hanswer, -⟩ := make_of_ok happly
      rw [hanswer]
      rfl
    | error e =>
      obtain ⟨hanswer, hmake⟩ := make_of_error happly
      rw [hanswer, hmake]
      rfl

/-- What reading an offset gives, nothing past the capacity. -/
def value? (s : Segment) (offset : Nat) : Option Cell := (s.valueAt offset).toOption.join

theorem WellFormed.valueAt_of_le (hs : s.WellFormed kind capacity) {offset : Nat}
    (hle : capacity ≤ offset) : s.valueAt offset = .error (.outOfRange offset capacity) := by
  rw [valueAt, checkRange, hs.capacity_eq, if_neg (by omega)]
  rfl

theorem WellFormed.value?_eq (hs : s.WellFormed kind capacity) (offset : Nat) :
    s.value? offset = s.cell? offset := by
  rw [value?]
  by_cases hlt : offset < capacity
  · rw [hs.valueAt_of_lt hlt]
    rfl
  · rw [hs.valueAt_of_le (by omega), hs.cell?_of_le (by omega)]
    rfl

/-- A segment made with room for some rows and changed any number of times. Its capacity is the
    largest it was given. Reading fails past the capacity, gives the cell that the log says was the
    last one written there and not cleared since, and gives nothing where the log has none. Every
    other way to read an offset agrees, the two checks say which changes fail, and without the ones
    that fail the segment would be the same. -/
theorem last_write_wins (kind : Kind) (capacity : Nat) (changes : List Change) :
    let s := (withCapacity kind capacity).run changes
    let log := (withCapacity kind capacity).log changes
    s.capacity = (changes.filterMap Change.grownTo?).foldl max capacity ∧
    (∀ offset, s.capacity ≤ offset →
      s.valueAt offset = .error (.outOfRange offset s.capacity)) ∧
    (∀ offset < s.capacity, ∃ found, s.valueAt offset = .ok found ∧
      ∀ cell, found = some cell ↔ LastSet log offset cell) ∧
    (∀ offset cell, LastSet log offset cell → offset < s.capacity) ∧
    (∀ offset, s.isPresent offset = (s.value? offset).isSome ∧
      s.floatAt offset = (s.value? offset).bind Cell.number? ∧
      s.enumAt offset = (s.value? offset).bind Cell.id? ∧
      s.truthy.contains offset = (s.value? offset).any Cell.isTruthy) ∧
    (∀ offset cell, s.answer (.setAt offset cell) =
      if offset < s.capacity then
        if cell.kind = kind then .ok () else .error (.typeMismatch "" kind.name cell.kind.name)
      else .error (.outOfRange offset s.capacity)) ∧
    (∀ offset, s.answer (.clearAt offset) =
      if offset < s.capacity then .ok () else .error (.outOfRange offset s.capacity)) ∧
    (withCapacity kind capacity).run (accepted log) = s := by
  intro s log
  have hs : s.WellFormed kind s.capacity := by
    have h := (wellFormed_withCapacity kind capacity).run changes
    rwa [← h.capacity_eq] at h
  have hcell (offset : Nat) (cell : Cell) :
      s.cell? offset = some cell ↔ LastSet log offset cell := by
    have h := (wellFormed_withCapacity kind capacity).cell?_run changes offset cell
    rw [cell?_withCapacity] at h
    simpa using h
  refine ⟨((wellFormed_withCapacity kind capacity).run changes).capacity_eq,
    fun offset => hs.valueAt_of_le,
    fun offset hlt => ⟨_, hs.valueAt_of_lt hlt, hcell offset⟩,
    fun offset cell hlast => ?_, fun offset => ?_, fun offset cell => ?_, fun offset => ?_,
    run_accepted _ changes⟩
  · exact hs.presence.lt offset (isPresent_of_cell? ((hcell offset cell).mpr hlast))
  · rw [hs.value?_eq]
    exact ⟨(hs.isSome_cell? offset).symm, floatAt_eq s offset, enumAt_eq s offset,
      hs.contains_truthy offset⟩
  · rw [answer, hs.apply_setAt]
    split_ifs <;> rfl
  · rw [answer, hs.apply_clearAt]
    split_ifs <;> rfl

/-- A truth value written, cleared and out of reach of a segment that then grows: the bit that the
    clear leaves in the array is not read. -/
example :
    let s := (withCapacity .bool 2).run
      [.setAt 1 (.bool true), .clearAt 1, .setAt 2 (.bool true), .grow 4, .setAt 3 (.enum 0)]
    s.capacity = 4 ∧ s.value? 1 = none ∧ s.value? 2 = none ∧ s.truthy.contains 1 = false := by
  decide

end Segment

end ColumnStore
