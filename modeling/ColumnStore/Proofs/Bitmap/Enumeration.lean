import ColumnStore.Proofs.Bitmap

/-!
# Enumerating bitmaps

The positions of a bitmap are enumerated in two ways. A visit goes through the words and takes the
lowest bit off each until nothing is left of it (`Bitmap.visit`). An iterator keeps its place between
calls: what is left of the current word and the words after it. Both rest on `Bitmap.toList`:

* `Word.positions_of_ne_zero`: taking off the lowest bit takes the first position off the list, so a
  word costs as many rounds as it has bits set (`Word.count_dropLowest`);
* `Iter.next_eq`: one call yields the head of what is to come and leaves the tail;
* `Iter.call_eq`: so the calls yield the list in order and nothing more after it;
* `enumeration_complete`: visit, iterator, count and list agree on every bitmap.
-/

namespace ColumnStore

namespace Word

variable {w : Word}

/-- The list of positions is the loop that takes off the lowest bit; no bound on its rounds is
    felt. -/
theorem positions_of_ne_zero (h : w ≠ 0) : w.positions = w.lowest :: w.dropLowest.positions := by
  have hlength : ((List.range 64).filter w.has).length ≤ 64 := by
    have := List.length_filter_le w.has (List.range 64)
    rwa [List.length_range] at this
  have hmore : positionsUpTo (width + 1) w = w.positions := by
    rw [positions_eq]
    exact positionsUpTo_eq _ _ (hlength.trans (Nat.le_succ _))
  rw [← hmore, positionsUpTo, if_neg h]
  rfl

@[simp]
theorem positions_zero : positions 0 = [] := rfl

/-- The lowest bit taken off, a word has one bit less. -/
theorem count_dropLowest (h : w ≠ 0) : w.dropLowest.count + 1 = w.count := by
  rw [count_eq, count_eq, positions_of_ne_zero h, List.length_cons]

/-- Calls `f` with every set bit of a word, lowest first: as long as a bit is left, `f` is called
    with the lowest, and this is taken off. -/
def visit {σ : Type} (f : σ → Nat → σ) (state : σ) (w : Word) : σ :=
  if w = 0 then state else visit f (f state w.lowest) w.dropLowest
termination_by w.count
decreasing_by
  have := count_dropLowest (w := w) (by assumption)
  omega

theorem visit_eq {σ : Type} (f : σ → Nat → σ) (state : σ) (w : Word) :
    w.visit f state = w.positions.foldl f state := by
  induction hcount : w.count generalizing state w with
  | zero =>
    have hzero : w = 0 := by
      by_contra h
      have := count_dropLowest h
      omega
    rw [hzero, visit, if_pos rfl]
    rfl
  | succ n ih =>
    have h : w ≠ 0 := by
      rintro rfl
      cases hcount
    have hless := count_dropLowest h
    rw [visit, if_neg h, positions_of_ne_zero h, List.foldl_cons, ih _ _ (by omega)]

end Word

namespace Bitmap

/-! ## Visits -/

/-- Calls `f` with every position, word by word (`range`). -/
def visit {σ : Type} (f : σ → Nat → σ) (state : σ) (b : Bitmap) : σ :=
  b.words.toList.zipIdx.foldl
    (fun state (w, j) => w.visit (fun state k => f state (64 * j + k)) state) state

theorem positionsFrom_cons (base : Nat) (w : Word) (rest : List Word) :
    positionsFrom base (w :: rest) =
      w.positions.map (base + ·) ++ positionsFrom (base + 64) rest := by
  rw [positionsFrom]
  split_ifs with h
  · rw [h, Word.positions_zero, List.map_nil, List.nil_append]
  · rfl

/-- A visit is a fold over the positions. -/
theorem visit_eq {σ : Type} (f : σ → Nat → σ) (state : σ) (b : Bitmap) :
    b.visit f state = b.toList.foldl f state := by
  have hfrom : ∀ (words : List Word) (j : Nat) (state : σ),
      (words.zipIdx j).foldl
          (fun state (w, j) => w.visit (fun state k => f state (64 * j + k)) state) state =
        (positionsFrom (64 * j) words).foldl f state := by
    intro words
    induction words with
    | nil => exact fun _ _ => rfl
    | cons w rest ih =>
      intro j state
      rw [List.zipIdx_cons, List.foldl_cons, ih, positionsFrom_cons, List.foldl_append,
        List.foldl_map, Nat.mul_succ]
      simp only [Word.visit_eq]
  exact hfrom _ 0 state

/-! ## Iterators -/

namespace Iter

/-- The positions still to come. -/
def remaining (it : Iter) : List Nat := positionsFrom it.base (it.current :: it.rest)

/-- One call yields the first position still to come, if there is one, and passes it. -/
theorem next_eq (it : Iter) :
    it.next.1 = it.remaining.head? ∧ it.next.2.remaining = it.remaining.tail := by
  obtain ⟨base, current, rest⟩ := it
  show (nextFrom base current rest).1 = (positionsFrom base (current :: rest)).head? ∧
    (nextFrom base current rest).2.remaining = (positionsFrom base (current :: rest)).tail
  -- words of which nothing is left are passed over, so the induction is on the words to come
  induction rest generalizing base current with
  | nil =>
    rw [nextFrom, positionsFrom_cons]
    split_ifs with h
    · subst h
      exact ⟨rfl, rfl⟩
    · rw [Word.positions_of_ne_zero h]
      exact ⟨rfl, positionsFrom_cons ..⟩
  | cons w rest ih =>
    rw [nextFrom, positionsFrom_cons]
    split_ifs with h
    · subst h
      exact ih (base + 64) w
    · rw [Word.positions_of_ne_zero h]
      exact ⟨rfl, positionsFrom_cons ..⟩

/-- What the `k`-th call from now on yields (`next`). -/
def call : (k : Nat) → Iter → Option Nat
  | 0, it => it.next.1
  | k + 1, it => call k it.next.2

/-- The calls yield the positions still to come, one after the other, and nothing after that. -/
theorem call_eq (k : Nat) (it : Iter) : it.call k = it.remaining[k]? := by
  induction k generalizing it with
  | zero => rw [call, it.next_eq.1, List.head?_eq_getElem?]
  | succ k ih => rw [call, ih, it.next_eq.2, List.getElem?_tail]

theorem takeUpTo_eq (fuel : Nat) (it : Iter) : takeUpTo fuel it = it.remaining.take fuel := by
  induction fuel generalizing it with
  | zero => rw [takeUpTo, List.take_zero]
  | succ fuel ih =>
    obtain ⟨hhead, htail⟩ := it.next_eq
    rw [takeUpTo]
    cases hremaining : it.remaining with
    | nil =>
      rw [hremaining] at hhead
      rw [show it.next = (none, it.next.2) from Prod.ext hhead rfl]
      rfl
    | cons i rest =>
      rw [hremaining] at hhead htail
      rw [show it.next = (some i, it.next.2) from Prod.ext hhead rfl]
      show i :: takeUpTo fuel it.next.2 = _
      rw [ih, htail]
      rfl

theorem length_positionsFrom_le (base : Nat) (words : List Word) :
    (positionsFrom base words).length ≤ 64 * words.length := by
  induction words generalizing base with
  | nil => exact Nat.zero_le _
  | cons w rest ih =>
    have hword : w.positions.length ≤ 64 := by
      have := List.length_filter_le w.has (List.range 64)
      rwa [← Word.positions_eq, List.length_range] at this
    have := ih (base + 64)
    rw [positionsFrom_cons, List.length_append, List.length_map, List.length_cons]
    omega

/-- An iterator lists what is still to come. -/
theorem toList_eq (it : Iter) : it.toList = it.remaining := by
  rw [toList, takeUpTo_eq, List.take_of_length_le]
  exact length_positionsFrom_le it.base (it.current :: it.rest)

end Iter

/-- At the start everything is still to come. -/
theorem remaining_iter (b : Bitmap) : b.iter.remaining = b.toList := by
  rw [iter, toList]
  cases b.words.toList <;> rfl

/-- Enumerating a bitmap gives every position, none twice and in ascending order. The calls of an
    iterator yield them one after the other and, once there are no more, nothing at every further
    call; a visit calls its function with the same positions in the same order; and the count is
    their number. -/
theorem enumeration_complete (b : Bitmap) :
    (∀ i, i ∈ b.toList ↔ b.contains i = true) ∧
    b.toList.Pairwise (· < ·) ∧
    (∀ k, b.iter.call k = b.toList[k]?) ∧
    (∀ k, b.iter.call (b.count + k) = none) ∧
    b.iter.toList = b.toList ∧
    (∀ {σ : Type} (f : σ → Nat → σ) state, b.visit f state = b.toList.foldl f state) ∧
    b.count = b.toList.length := by
  have hcall : ∀ k, b.iter.call k = b.toList[k]? := by
    intro k
    rw [Iter.call_eq, remaining_iter]
  refine ⟨fun i => mem_toList, b.toList_pairwise, hcall, fun k => ?_, ?_,
    fun f state => visit_eq f state b, b.count_eq⟩
  · rw [hcall, count_eq, List.getElem?_eq_none (Nat.le_add_right ..)]
  · rw [Iter.toList_eq, remaining_iter]

end Bitmap

end ColumnStore
