import ColumnStore.Bytes
import Mathlib

/-!
# Reasoning about readers

`Yields x P`: whatever the bytes, what the reader gives satisfies `P`. The rules follow the way
readers are put together, so a fact about a stored form is proved part by part.
-/

namespace ColumnStore

namespace Reader

variable {α β : Type}

theorem bind_apply (x : Reader α) (f : α → Reader β) (bytes : Bytes) :
    (x >>= f) bytes =
      match x bytes with
      | .ok (a, rest) => f a rest
      | .error cause => .error cause := by
  show StateT.bind x f bytes = _
  unfold StateT.bind
  cases x bytes <;> rfl

/-- Readers one after the other succeed one after the other. -/
theorem exists_of_bind {x : Reader α} {f : α → Reader β} {bytes rest : Bytes} {b : β}
    (h : (x >>= f) bytes = .ok (b, rest)) :
    ∃ a left, x bytes = .ok (a, left) ∧ f a left = .ok (b, rest) := by
  rw [bind_apply] at h
  cases hx : x bytes with
  | error cause =>
    rw [hx] at h
    cases h
  | ok result =>
    rw [hx] at h
    exact ⟨result.1, result.2, rfl, h⟩

/-- A value is found at the front of some bytes if the reader gives it and leaves any rest. -/
theorem map_fst_eq_ok_iff {x : Reader α} {bytes : Bytes} {a : α} :
    (x bytes).map Prod.fst = .ok a ↔ ∃ rest, x bytes = .ok (a, rest) := by
  cases x bytes with
  | error cause => simp [Except.map]
  | ok result =>
    obtain ⟨b, rest⟩ := result
    simp [Except.map]

/-- What the reader gives satisfies a property. -/
def Yields (x : Reader α) (P : α → Prop) : Prop :=
  ∀ bytes a rest, x bytes = .ok (a, rest) → P a

variable {x : Reader α} {P : α → Prop} {Q : β → Prop}

theorem Yields.trivial (x : Reader α) : Yields x fun _ => True := fun _ _ _ _ => True.intro

theorem Yields.and (h : Yields x P) {P' : α → Prop} (h' : Yields x P') :
    Yields x fun a => P a ∧ P' a :=
  fun bytes a rest heq => ⟨h bytes a rest heq, h' bytes a rest heq⟩

theorem Yields.pure {a : α} (h : P a) : Yields (Pure.pure a) P := by
  intro bytes b rest heq
  cases heq
  exact h

theorem Yields.fail (cause : Corruption) (P : α → Prop) : Yields (Reader.fail cause) P := by
  intro bytes b rest heq
  cases heq

theorem Yields.bind (h : Yields x P) {f : α → Reader β} (hf : ∀ a, P a → Yields (f a) Q) :
    Yields (x >>= f) Q := by
  intro bytes b rest heq
  obtain ⟨a, left, hx, hfa⟩ := exists_of_bind heq
  exact hf a (h bytes a left hx) left b rest hfa

/-- A reader of which nothing need be known. -/
theorem Yields.bind_any {f : α → Reader β} (hf : ∀ a, Yields (f a) Q) : Yields (x >>= f) Q :=
  (Yields.trivial x).bind fun a _ => hf a

theorem Yields.require_bind {ok : Bool} {cause : Corruption} {f : Unit → Reader β}
    (hf : ok = true → Yields (f ()) Q) : Yields (Reader.require ok cause >>= f) Q := by
  have h : Yields (Reader.require ok cause) fun _ => ok = true := by
    intro bytes b rest heq
    unfold Reader.require at heq
    split_ifs at heq with hok
    exact hok
  exact h.bind fun _ hok => hf hok

theorem Yields.lift {e : Except Corruption α} (h : ∀ a, e = .ok a → P a) :
    Yields (liftM e) P := by
  intro bytes a rest heq
  cases e with
  | error cause => cases heq
  | ok b =>
    cases heq
    exact h a rfl

theorem Yields.mapM {ι : Type} {f : ι → Reader α} {items : List ι}
    (h : ∀ i ∈ items, Yields (f i) P) :
    Yields (items.mapM f) fun results =>
      results.length = items.length ∧ ∀ a ∈ results, P a := by
  induction items with
  | nil =>
    rw [List.mapM_nil]
    exact Yields.pure ⟨rfl, by simp⟩
  | cons i rest ih =>
    rw [List.mapM_cons]
    refine (h i List.mem_cons_self).bind fun a ha => ?_
    refine (ih fun j hj => h j (List.mem_cons_of_mem _ hj)).bind fun results hresults => ?_
    refine Yields.pure ⟨by simp [hresults.1], fun b hb => ?_⟩
    rcases List.mem_cons.mp hb with rfl | hb
    · exact ha
    · exact hresults.2 b hb

theorem Yields.replicate (h : Yields x P) (n : Nat) :
    Yields (Reader.replicate x n) fun results => results.length = n ∧ ∀ a ∈ results, P a := by
  induction n with
  | zero => exact Yields.pure ⟨rfl, by simp⟩
  | succ n ih =>
    refine h.bind fun a ha => ih.bind fun results hresults => ?_
    refine Yields.pure ⟨by simp [hresults.1], fun b hb => ?_⟩
    rcases List.mem_cons.mp hb with rfl | hb
    · exact ha
    · exact hresults.2 b hb

end Reader

end ColumnStore
