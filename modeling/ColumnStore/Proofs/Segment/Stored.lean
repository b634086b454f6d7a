import ColumnStore.Proofs.Segment.Codec
import ColumnStore.Proofs.Segment.History

/-!
# Segments stored and read again

The stored form of a segment holds its presence bitmap, which has as many words as the capacity
needs, and then the cells of the offsets that the bitmap lists. Both sides go through these offsets
in ascending order, so the reader is at the next cell where the writer put it. The capacity is
stored too but only checked: the segment that is read ends with its last present offset.

* `WellFormed.trimmed_reread`, `WellFormed.isPresent_reread`: the shape of the segment that is read;
* `read_encode_run`: a segment after any changes is read back from the front of any bytes, and
  whatever segment is read from any bytes keeps its offsets below its capacity and the limit.
-/

namespace ColumnStore

namespace Segment

variable {kind : Kind} {capacity : Nat} {s : Segment}

/-- The capacity is one past the last present offset, and 0 if no offset is present. -/
def Trimmed (s : Segment) : Prop :=
  (s.capacity = 0 ∧ ∀ offset, s.isPresent offset = false) ∨
    ∃ last, s.capacity = last + 1 ∧ s.isPresent last = true ∧
      ∀ offset, s.isPresent offset = true → offset ≤ last

@[simp] theorem capacity_putAll (s : Segment) (cells : List (Nat × Cell)) :
    (s.putAll cells).capacity = s.capacity := by
  induction cells generalizing s with
  | nil => rfl
  | cons entry rest ih => exact ih (s.put entry.1 entry.2)

theorem capacity_reread (s : Segment) :
    s.reread.capacity = (s.presence.toList.getLast?.map (· + 1)).getD 0 := by
  rw [reread, capacity_putAll]
  rfl

theorem WellFormed.isPresent_reread (hs : s.WellFormed kind capacity) (offset : Nat) :
    s.reread.isPresent offset = s.isPresent offset := by
  obtain ⟨hreread, -, hcell⟩ := hs.reread
  rw [← hreread.isSome_cell?, ← hs.isSome_cell?, hcell]

theorem WellFormed.trimmed_reread (hs : s.WellFormed kind capacity) : s.reread.Trimmed := by
  have hcapacity := s.capacity_reread
  unfold Trimmed
  simp only [hs.isPresent_reread]
  cases hlast : s.presence.toList.getLast? with
  | none =>
    left
    have hempty : s.presence.toList = [] := List.getLast?_eq_none_iff.mp hlast
    refine ⟨by rw [hcapacity, hlast]; rfl, fun offset => ?_⟩
    rw [← Bool.not_eq_true]
    intro hpresent
    have hmem : offset ∈ s.presence.toList := Bitmap.mem_toList.mpr hpresent
    rw [hempty] at hmem
    cases hmem
  | some last =>
    right
    refine ⟨last, by rw [hcapacity, hlast]; rfl, ?_, fun offset hpresent => ?_⟩
    · exact Bitmap.mem_toList.mp (List.mem_of_getLast? hlast)
    · have hlt := lt_used s.presence.toList_pairwise (Bitmap.mem_toList.mpr hpresent)
      rw [hlast] at hlt
      exact Nat.le_of_lt_succ hlt

/-- A segment made with room for some rows and changed any number of times. If its capacity and its
    cells fit the widths of the stored form, it is read back from its stored form by any reader
    whose limit it keeps, and the bytes behind the stored form are left: the same offsets are
    present with the same cells, and the capacity ends with the last of them. And whatever segment
    a reader gives, of any bytes, its present offsets are below its capacity and below the limit. -/
theorem read_encode_run (kind : Kind) (capacity : Nat) (changes : List Change) :
    let s := (withCapacity kind capacity).run changes
    (∀ limit, s.capacity < 2 ^ 32 → s.capacity ≤ limit →
      (∀ offset cell, s.cell? offset = some cell → cell.Encodable) →
      ∃ s' : Segment, s'.Trimmed ∧ s'.kind = kind ∧
        (∀ offset, s'.isPresent offset = s.isPresent offset) ∧
        (∀ offset, s'.cell? offset = s.cell? offset) ∧
        ∀ tail, Segment.read kind limit (s.encode ++ tail) = .ok (s', tail)) ∧
    ∀ limit bytes s' rest, Segment.read kind limit bytes = .ok (s', rest) →
      ∀ offset, s'.isPresent offset = true → offset < s'.capacity ∧ offset < limit := by
  intro s
  have hs : s.WellFormed kind s.capacity := by
    have h := (wellFormed_withCapacity kind capacity).run changes
    rwa [← h.capacity_eq] at h
  refine ⟨fun limit hfits hlimit hcells => ?_, fun limit bytes s' rest hread offset hpresent => ?_⟩
  · obtain ⟨hreread, -, hcell⟩ := hs.reread
    exact ⟨s.reread, hs.trimmed_reread, hreread.kind_eq, hs.isPresent_reread, hcell,
      hs.reads_encode hlimit hfits hcells⟩
  · obtain ⟨hs', hle⟩ := yields_read kind limit bytes s' rest hread
    have hlt := hs'.presence.lt offset hpresent
    exact ⟨hlt, hlt.trans_le hle⟩

/-- Two values, one of them where another was cleared, in a segment that has grown since. -/
theorem read_encode_run_values :
    let s := (withCapacity .any 4).run
      [.setAt 1 (.any .null), .setAt 3 (.any (.list [.bool true])), .clearAt 1, .grow 9,
        .setAt 1 (.any (.string "é")), .setAt 9 (.any .null)]
    s.capacity = 9 ∧ ∃ s' : Segment, s'.Trimmed ∧ s'.isPresent 0 = false ∧
      s'.cell? 1 = some (.any (.string "é")) ∧
      Segment.read .any 16 (s.encode ++ [7, 7]) = .ok (s', [7, 7]) := by
  intro s
  have hcapacity : s.capacity = 9 := by cbv
  have hoffsets : s.presence.toList = [1, 3] := by cbv
  have htext : s.cell? 1 = some (.any (.string "é")) := by cbv
  have hlist : s.cell? 3 = some (.any (.list [.bool true])) := by cbv
  have hcells : ∀ offset cell, s.cell? offset = some cell → cell.Encodable := by
    intro offset cell hcell
    have hmem : offset ∈ s.presence.toList := Bitmap.mem_toList.mpr (isPresent_of_cell? hcell)
    rw [hoffsets, List.mem_pair] at hmem
    rcases hmem with rfl | rfl
    · obtain rfl := Option.some.inj (htext.symm.trans hcell)
      exact ⟨trivial, by cbv⟩
    · obtain rfl := Option.some.inj (hlist.symm.trans hcell)
      exact ⟨⟨trivial, trivial⟩, by cbv⟩
  have hlimit : s.capacity ≤ 16 := hcapacity.trans_le (by decide)
  obtain ⟨s', htrimmed, -, hpresent, hcell, hread⟩ :=
    (read_encode_run .any 4 _).1 16 (hlimit.trans_lt (by decide)) hlimit hcells
  exact ⟨hcapacity, s', htrimmed, hpresent 0, (hcell 1).trans htext, hread [7, 7]⟩

end Segment

end ColumnStore
