import ColumnStore.Entries
import Mathlib

/-!
# Putting entries in order

Putting entries in key order does nothing to entries that are in it (`ofList_of_pairwise`), and
where no key occurs twice it loses none (`ofList_perm`). So entries in key order are what any of
their rearrangements comes to (`ofList_eq_of_perm`). In any case no entry is made up
(`mem_of_mem_ofList`).
-/

namespace ColumnStore

namespace Entries

variable {α : Type} {key : String} {entries : List (String × α)}

/-- A key after all others goes to the end. -/
theorem insert_of_forall_lt (h : ∀ k ∈ entries.map Prod.fst, k < key) (value : α) :
    insert key value entries = entries ++ [(key, value)] := by
  induction entries with
  | nil => rfl
  | cons entry rest ih =>
    obtain ⟨k, v⟩ := entry
    have hlt : k < key := h k List.mem_cons_self
    have hne : key ≠ k := fun heq => lt_irrefl k (heq ▸ hlt)
    rw [insert, if_neg (lt_asymm hlt), if_neg hne,
      ih fun other hother => h other (List.mem_cons_of_mem _ hother)]
    rfl

theorem foldl_insert_of_pairwise {sorted : List (String × α)}
    (h : ((sorted ++ entries).map Prod.fst).Pairwise (· < ·)) :
    entries.foldl (fun sorted entry => insert entry.1 entry.2 sorted) sorted =
      sorted ++ entries := by
  induction entries generalizing sorted with
  | nil => rw [List.foldl_nil, List.append_nil]
  | cons entry rest ih =>
    have hlast : ∀ k ∈ sorted.map Prod.fst, k < entry.1 := by
      intro k hk
      rw [List.map_append, List.pairwise_append] at h
      exact h.2.2 k hk entry.1 List.mem_cons_self
    have hassoc : sorted ++ entry :: rest = (sorted ++ [entry]) ++ rest := by
      rw [List.append_assoc, List.singleton_append]
    rw [List.foldl_cons, insert_of_forall_lt hlast, hassoc]
    rw [hassoc] at h
    exact ih h

/-- Entries that are in order stay as they are. -/
theorem ofList_of_pairwise (h : (entries.map Prod.fst).Pairwise (· < ·)) :
    ofList entries = entries :=
  foldl_insert_of_pairwise h

/-- A new key is one entry more. -/
theorem insert_perm (h : key ∉ entries.map Prod.fst) (value : α) :
    (insert key value entries).Perm ((key, value) :: entries) := by
  induction entries with
  | nil => exact List.Perm.refl _
  | cons entry rest ih =>
    obtain ⟨k, v⟩ := entry
    have hne : key ≠ k := fun heq => h (heq ▸ List.mem_cons_self)
    rw [insert]
    split_ifs with hlt
    · exact List.Perm.refl _
    · exact ((ih fun hmem => h (List.mem_cons_of_mem _ hmem)).cons (k, v)).trans
        (List.Perm.swap ..)

theorem foldl_insert_perm {sorted : List (String × α)}
    (h : ((sorted ++ entries).map Prod.fst).Nodup) :
    (entries.foldl (fun sorted entry => insert entry.1 entry.2 sorted) sorted).Perm
      (sorted ++ entries) := by
  induction entries generalizing sorted with
  | nil =>
    rw [List.foldl_nil, List.append_nil]
  | cons entry rest ih =>
    have hnew : entry.1 ∉ sorted.map Prod.fst := by
      intro hmem
      rw [List.map_append, List.nodup_append] at h
      exact h.2.2 entry.1 hmem entry.1 List.mem_cons_self rfl
    have hperm := insert_perm hnew entry.2
    have hmoved : (insert entry.1 entry.2 sorted ++ rest).Perm (sorted ++ entry :: rest) :=
      (hperm.append_right rest).trans List.perm_middle.symm
    rw [List.foldl_cons]
    exact (ih ((hmoved.map Prod.fst).nodup_iff.mpr h)).trans hmoved

/-- Entries without a repeated key are all there. -/
theorem ofList_perm (h : (entries.map Prod.fst).Nodup) : (ofList entries).Perm entries :=
  foldl_insert_perm h

/-- A key that all others come after, or the new one does, still comes first. -/
theorem forall_lt_insert {k : String} (h : ∀ other ∈ entries.map Prod.fst, k < other)
    (hlt : k < key) (value : α) : ∀ other ∈ (insert key value entries).map Prod.fst, k < other := by
  induction entries with
  | nil =>
    intro other hother
    rw [List.mem_singleton.mp hother]
    exact hlt
  | cons entry rest ih =>
    obtain ⟨first, v⟩ := entry
    rw [List.map_cons, List.forall_mem_cons] at h
    rw [insert]
    split_ifs
    · rw [List.map_cons, List.map_cons, List.forall_mem_cons, List.forall_mem_cons]
      exact ⟨hlt, h⟩
    · rw [List.map_cons, List.forall_mem_cons]
      exact ⟨hlt, h.2⟩
    · rw [List.map_cons, List.forall_mem_cons]
      exact ⟨h.1, ih h.2⟩

theorem insert_pairwise (h : (entries.map Prod.fst).Pairwise (· < ·)) (key : String) (value : α) :
    ((insert key value entries).map Prod.fst).Pairwise (· < ·) := by
  induction entries with
  | nil => exact List.pairwise_singleton _ _
  | cons entry rest ih =>
    obtain ⟨first, v⟩ := entry
    rw [List.map_cons, List.pairwise_cons] at h
    rw [insert]
    split_ifs with hlt heq
    · rw [List.map_cons, List.map_cons, List.pairwise_cons, List.pairwise_cons,
        List.forall_mem_cons]
      exact ⟨⟨hlt, fun other hother => lt_trans hlt (h.1 other hother)⟩, h⟩
    · subst heq
      rw [List.map_cons, List.pairwise_cons]
      exact h
    · rw [List.map_cons, List.pairwise_cons]
      have hafter : first < key := lt_of_le_of_ne (not_lt.mp hlt) fun h => heq h.symm
      exact ⟨forall_lt_insert h.1 hafter value, ih h.2⟩

/-- Entries are in order after they were put in order. -/
theorem ofList_pairwise (entries : List (String × α)) :
    ((ofList entries).map Prod.fst).Pairwise (· < ·) := by
  have hfold : ∀ sorted : List (String × α), (sorted.map Prod.fst).Pairwise (· < ·) →
      ((entries.foldl (fun sorted entry => insert entry.1 entry.2 sorted) sorted).map
        Prod.fst).Pairwise (· < ·) := by
    induction entries with
    | nil => exact fun sorted h => h
    | cons entry rest ih => exact fun sorted h => ih _ (insert_pairwise h entry.1 entry.2)
  exact hfold [] List.Pairwise.nil

/-- Two lists of the same entries that are both in order are equal. -/
theorem eq_of_perm {others : List (String × α)} (h : entries.Perm others)
    (hentries : (entries.map Prod.fst).Pairwise (· < ·))
    (hothers : (others.map Prod.fst).Pairwise (· < ·)) : entries = others := by
  rw [List.pairwise_map] at hentries hothers
  exact h.eq_of_pairwise (fun a b _ _ hlt hgt => absurd hgt (lt_asymm hlt)) hentries hothers

/-- Entries in order are what any list of the same entries comes to. -/
theorem ofList_eq_of_perm {sorted : List (String × α)} (h : entries.Perm sorted)
    (hsorted : (sorted.map Prod.fst).Pairwise (· < ·)) : ofList entries = sorted := by
  have hnodup : (entries.map Prod.fst).Nodup :=
    ((h.map Prod.fst).nodup_iff).mpr (hsorted.imp fun hlt => ne_of_lt hlt)
  exact eq_of_perm ((ofList_perm hnodup).trans h) (ofList_pairwise entries) hsorted

/-! ## What putting entries in order keeps -/

theorem mem_of_mem_insert {value : α} {entry : String × α}
    (h : entry ∈ insert key value entries) : entry = (key, value) ∨ entry ∈ entries := by
  induction entries with
  | nil => exact Or.inl (List.mem_singleton.mp h)
  | cons first rest ih =>
    obtain ⟨k, v⟩ := first
    rw [insert] at h
    split_ifs at h
    · exact List.mem_cons.mp h
    · exact (List.mem_cons.mp h).imp_right (List.mem_cons_of_mem _)
    · rcases List.mem_cons.mp h with rfl | hrest
      · exact Or.inr List.mem_cons_self
      · exact (ih hrest).imp_right (List.mem_cons_of_mem _)

/-- No entry is made up. -/
theorem mem_of_mem_ofList {entry : String × α} (h : entry ∈ ofList entries) : entry ∈ entries := by
  have hfold : ∀ sorted : List (String × α),
      entry ∈ entries.foldl (fun sorted entry => insert entry.1 entry.2 sorted) sorted →
        entry ∈ sorted ∨ entry ∈ entries := by
    clear h
    induction entries with
    | nil => exact fun sorted h => Or.inl h
    | cons first rest ih =>
      intro sorted h
      rcases ih _ h with hsorted | hrest
      · rcases mem_of_mem_insert hsorted with rfl | hold
        · exact Or.inr List.mem_cons_self
        · exact Or.inl hold
      · exact Or.inr (List.mem_cons_of_mem _ hrest)
  exact (hfold [] h).resolve_left List.not_mem_nil

theorem sum_insert_le (size : String × α → Nat) (key : String) (value : α)
    (entries : List (String × α)) :
    ((insert key value entries).map size).sum ≤ (entries.map size).sum + size (key, value) := by
  induction entries with
  | nil => rw [insert, List.map_singleton, List.sum_singleton]; exact Nat.le_add_left ..
  | cons first rest ih =>
    obtain ⟨k, v⟩ := first
    rw [insert]
    split_ifs <;> simp only [List.map_cons, List.sum_cons] <;> omega

/-- Whatever is added up over the entries does not grow. -/
theorem sum_ofList_le (size : String × α → Nat) (entries : List (String × α)) :
    ((ofList entries).map size).sum ≤ (entries.map size).sum := by
  have hfold : ∀ sorted : List (String × α),
      ((entries.foldl (fun sorted entry => insert entry.1 entry.2 sorted) sorted).map size).sum ≤
        (sorted.map size).sum + (entries.map size).sum := by
    induction entries with
    | nil => exact fun sorted => Nat.le_add_right ..
    | cons first rest ih =>
      obtain ⟨k, v⟩ := first
      intro sorted
      simp only [List.foldl_cons, List.map_cons, List.sum_cons]
      have hrest := ih (insert k v sorted)
      have hfirst := sum_insert_le size k v sorted
      omega
  exact (hfold []).trans (Nat.le_of_eq (Nat.zero_add _))

end Entries

end ColumnStore
