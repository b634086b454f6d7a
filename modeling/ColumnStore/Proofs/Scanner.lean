import ColumnStore.Error
import ColumnStore.Proofs.Bytes

/-!
# Scanners

A reader of stored forms works on what is left of the bytes: it can refuse them, and nothing else
can happen to it. A scanner works on a buffer, as a machine does. It keeps a position, cuts slices,
looks at single places and computes sizes in 64 bits, and it stops if a slice or a place is out of
bounds or a size does not fit (`Stop`).

`Follows x y`: from any position of any buffer, the scanner `x` gives what the reader `y` gives of
the bytes from there on, or refuses them for the same cause. So it never stops for another reason.
The rules follow the way scanners are put together, and come for scanners and readers that are put
together alike.
-/

namespace ColumnStore

/-- Why a scan stops. -/
inductive Stop where
  /-- The bytes are refused. -/
  | refused (error : Error)
  /-- A slice or a place was out of bounds. -/
  | bounds
  /-- A size was less than 0 or did not fit. -/
  | overflow
  /-- A column or an index came to another slot than the one counted for it. -/
  | slot

/-- The bytes are refused for what they are. -/
abbrev Stop.corrupt (cause : Corruption) : Stop := .refused (.corruptSnapshot cause)

/-- A computation in which every access and every size is looked at. -/
abbrev Checked (α : Type) := Except Stop α

namespace Checked

variable {α : Type}

/-- Refuses the bytes. -/
def fail (cause : Corruption) : Checked α := .error (.corrupt cause)

/-- Goes on only if `ok`. -/
def require (ok : Bool) (cause : Corruption) : Checked Unit := if ok then .ok () else fail cause

/-- A size, which must fit 64 bits. -/
def size (n : Nat) : Checked Nat := if n < 2 ^ 64 then .ok n else .error .overflow

/-- A difference of sizes. -/
def minus (a b : Nat) : Checked Nat := if b ≤ a then .ok (a - b) else .error .overflow

/-- What is at a place, if there is such a place. -/
def place : Option α → Checked α
  | some a => .ok a
  | none => .error .bounds

/-- The bytes from `start` up to `stop`. -/
def slice (bytes : Bytes) (start stop : Nat) : Checked Bytes :=
  if start ≤ stop ∧ stop ≤ bytes.length then .ok ((bytes.drop start).take (stop - start))
  else .error .bounds

/-- The number in the four bytes from `pos` on. -/
def word32 (bytes : Bytes) (pos : Nat) : Checked Nat := do
  let b0 ← place bytes[pos]?
  let b1 ← place bytes[pos + 1]?
  let b2 ← place bytes[pos + 2]?
  let b3 ← place bytes[pos + 3]?
  pure (Bytes.toNat [b0, b1, b2, b3])

@[simp] theorem ok_bind {β : Type} (a : α) (f : α → Checked β) :
    (Except.ok a >>= f : Checked β) = f a := rfl

theorem require_of {ok : Bool} (h : ok = true) (cause : Corruption) :
    require ok cause = .ok () := if_pos h

theorem require_of_not {ok : Bool} (h : ¬ ok = true) (cause : Corruption) :
    require ok cause = fail cause := if_neg h

theorem size_of_lt {n : Nat} (h : n < 2 ^ 64) : size n = .ok n := if_pos h

theorem minus_of_le {a b : Nat} (h : b ≤ a) : minus a b = .ok (a - b) := if_pos h

theorem slice_of_le {bytes : Bytes} {start stop : Nat} (h : start ≤ stop)
    (hstop : stop ≤ bytes.length) :
    slice bytes start stop = .ok ((bytes.drop start).take (stop - start)) := if_pos ⟨h, hstop⟩

theorem slice_rest {bytes : Bytes} {start : Nat} (h : start ≤ bytes.length) :
    slice bytes start bytes.length = .ok (bytes.drop start) := by
  rw [slice_of_le h le_rfl, ← List.length_drop, List.take_length]

/-- Where there are four bytes, they are looked at and make a number of 32 bits. -/
theorem word32_of_le {bytes : Bytes} {pos : Nat} (h : pos + 4 ≤ bytes.length) :
    word32 bytes pos = .ok (Bytes.toNat ((bytes.drop pos).take 4)) ∧
      Bytes.toNat ((bytes.drop pos).take 4) < 2 ^ 32 := by
  have hlength : ((bytes.drop pos).take 4).length = 4 := by
    rw [List.length_take, List.length_drop]
    omega
  have hat : ∀ i < 4, bytes[pos + i]? = ((bytes.drop pos).take 4)[i]? := fun i hi => by
    rw [List.getElem?_take_of_lt hi, List.getElem?_drop]
  refine ⟨?_, Bytes.toNat_lt_of_length hlength⟩
  rw [word32, ← Nat.add_zero pos, hat 0 (by omega)]
  simp only [Nat.add_zero]
  rw [hat 1 (by omega), hat 2 (by omega), hat 3 (by omega)]
  generalize (bytes.drop pos).take 4 = front at hlength ⊢
  match front, hlength with
  | [b0, b1, b2, b3], _ => rfl

theorem mapM_of_forall {ι : Type} {f : ι → Checked α} {g : ι → α} {items : List ι}
    (h : ∀ i ∈ items, f i = .ok (g i)) : items.mapM f = .ok (items.map g) := by
  induction items with
  | nil => rfl
  | cons i rest ih =>
    rw [List.mapM_cons, h i List.mem_cons_self, ih fun j hj => h j (List.mem_cons_of_mem _ hj)]
    rfl

/-- Attempts, each refusing for a cause that the bytes give. -/
theorem mapM_mapError {ι : Type} {f : ι → Checked α} {e : ι → Except Corruption α} {items : List ι}
    (h : ∀ i ∈ items, f i = (e i).mapError .corrupt) :
    items.mapM f = (items.mapM e).mapError .corrupt := by
  induction items with
  | nil => rfl
  | cons i rest ih =>
    rw [List.mapM_cons, List.mapM_cons, h i List.mem_cons_self,
      ih fun j hj => h j (List.mem_cons_of_mem _ hj)]
    cases e i with
    | error cause => rfl
    | ok a => cases rest.mapM e <;> rfl

/-- A checked computation gives something that goes with what another one gives, or is refused for
    the same error. -/
inductive Tracks {α β : Type} (R : α → β → Prop) : Checked α → Except Error β → Prop where
  | ok {a : α} {b : β} (h : R a b) : Tracks R (.ok a) (.ok b)
  | refused (e : Error) : Tracks R (.error (.refused e)) (.error e)

theorem Tracks.outcome {α β : Type} {R : α → β → Prop} {x : Checked α} {y : Except Error β}
    (h : Tracks R x y) :
    (∃ a b, x = .ok a ∧ y = .ok b ∧ R a b) ∨ ∃ e, x = .error (.refused e) ∧ y = .error e := by
  cases h with
  | ok h => exact .inl ⟨_, _, rfl, rfl, h⟩
  | refused e => exact .inr ⟨e, rfl, rfl⟩

end Checked

/-- Scans a buffer from a position on and gives a value with the position after it. -/
abbrev Scanner (α : Type) := ReaderT Bytes (StateT Nat (Except Stop)) α

namespace Scanner

variable {α β : Type}

/-- A computation that does not look at the buffer. -/
def check (x : Checked α) : Scanner α := fun _ pos => x.map fun a => (a, pos)

/-- Goes on only if `ok`. -/
def require (ok : Bool) (cause : Corruption) : Scanner Unit := check (Checked.require ok cause)

/-- The number of bytes from the position on (`remaining`). -/
def remaining : Scanner Nat := fun bytes pos =>
  (Checked.minus bytes.length pos).map fun left => (left, pos)

/-- The next `n` bytes (`take`). -/
def take (n : Nat) (part : String) : Scanner Bytes := fun bytes pos => do
  let left ← Checked.minus bytes.length pos
  Checked.require (n ≤ left) (.truncated part)
  let stop ← Checked.size (pos + n)
  let front ← Checked.slice bytes pos stop
  pure (front, stop)

/-- A little-endian number, copied to an array of `width` bytes. -/
def nat (width : Nat) (part : String) : Scanner Nat := do
  let bytes ← take width part
  if bytes.length = width then pure bytes.toNat else check (.error .bounds)

/-- A text behind its length of four bytes (`string`). -/
def string (part : String) : Scanner String := do
  let length ← nat 4 part
  let bytes ← take length part
  match bytes.toString? with
  | some s => pure s
  | none => check (Checked.fail (.invalidText part))

/-- Gives the bytes from the position on to a parser and goes past the bytes that, by its size, the
    result was stored in. -/
def within (parse : Bytes → Checked α) (storedSize : α → Nat) : Scanner α := fun bytes pos => do
  let rest ← Checked.slice bytes pos bytes.length
  let a ← parse rest
  let stop ← Checked.size (pos + storedSize a)
  pure (a, stop)

/-- The same thing `n` times over. -/
def replicate (item : Scanner α) : (n : Nat) → Scanner (List α)
  | 0 => pure []
  | n + 1 => do
    let a ← item
    let rest ← replicate item n
    pure (a :: rest)

theorem bind_apply (x : Scanner α) (f : α → Scanner β) (bytes : Bytes) (pos : Nat) :
    (x >>= f) bytes pos =
      match x bytes pos with
      | .ok (a, next) => f a bytes next
      | .error stop => .error stop := by
  show (StateT.bind (x bytes) fun a => f a bytes) pos = _
  unfold StateT.bind
  cases x bytes pos <;> rfl

/-! ## Following a reader -/

/-- A scan and a reading come to the same: they give the same and go on at the same place in the
    buffer, or they refuse the bytes for the same cause. -/
inductive Agrees (bytes : Bytes) :
    Except Stop (α × Nat) → Except Corruption (α × Bytes) → Prop where
  | ok (a : α) {pos : Nat} (h : pos ≤ bytes.length) :
    Agrees bytes (.ok (a, pos)) (.ok (a, bytes.drop pos))
  | refused (cause : Corruption) : Agrees bytes (.error (.corrupt cause)) (.error cause)

/-- From any position of a buffer, the scanner does what the reader does with the bytes from there
    on. A buffer in memory is shorter than 2⁶³ bytes. -/
def Follows (x : Scanner α) (y : Reader α) : Prop :=
  ∀ (bytes : Bytes) (pos : Nat), bytes.length < 2 ^ 63 → pos ≤ bytes.length →
    Agrees bytes (x bytes pos) (y (bytes.drop pos))

variable {x : Scanner α} {y : Reader α} {f : α → Scanner β} {g : α → Reader β}

theorem Follows.pure (a : α) : Follows (Pure.pure a) (Pure.pure a) := fun _ _ _ hpos => .ok a hpos

theorem Follows.fail (cause : Corruption) :
    Follows (check (Checked.fail cause) : Scanner α) (Reader.fail cause) :=
  fun _ _ _ _ => .refused cause

/-- What is known of everything the reader gives is known of what the scanner gives. -/
theorem Follows.bind_of (h : Follows x y) {P : α → Prop} (hP : Reader.Yields y P)
    (hf : ∀ a, P a → Follows (f a) (g a)) : Follows (x >>= f) (y >>= g) := by
  intro bytes pos hlength hpos
  have hfirst := h bytes pos hlength hpos
  rw [bind_apply, Reader.bind_apply]
  generalize hy : y (bytes.drop pos) = read at hfirst ⊢
  generalize x bytes pos = scanned at hfirst ⊢
  cases hfirst with
  | ok a hnext => exact hf a (hP _ _ _ hy) bytes _ hlength hnext
  | refused cause => exact .refused cause

theorem Follows.bind (h : Follows x y) (hf : ∀ a, Follows (f a) (g a)) :
    Follows (x >>= f) (y >>= g) :=
  h.bind_of (Reader.Yields.trivial y) fun a _ => hf a

/-- A scanner that makes something of what the reader gives. -/
theorem Follows.bind_map_of {γ : Type} {x : Scanner γ} {m : α → γ}
    (h : Follows x (y >>= fun a => Pure.pure (m a))) {P : α → Prop} (hP : Reader.Yields y P)
    {f : γ → Scanner β} (hf : ∀ a, P a → Follows (f (m a)) (g a)) :
    Follows (x >>= f) (y >>= g) := by
  intro bytes pos hlength hpos
  have hfirst := h bytes pos hlength hpos
  rw [bind_apply, Reader.bind_apply]
  rw [Reader.bind_apply] at hfirst
  generalize x bytes pos = scanned at hfirst ⊢
  -- split by what the reader gives: the scanner's value is that one seen through `m`
  cases hy : y (bytes.drop pos) with
  | error cause =>
    rw [hy] at hfirst
    cases hfirst
    exact .refused cause
  | ok result =>
    obtain ⟨a, rest⟩ := result
    rw [hy] at hfirst
    generalize hread : (Except.ok (m a, rest) : Except Corruption (γ × Bytes)) = read at hfirst
    cases hfirst with
    | ok c hnext =>
      cases hread
      exact hf a (hP _ _ _ hy) bytes _ hlength hnext

/-- A check that passes. -/
theorem Follows.check_bind {e : Checked α} {a : α} (he : e = .ok a) {y : Reader β}
    (hf : Follows (f a) y) : Follows (check e >>= f) y := by
  subst he
  exact hf

theorem Follows.check_ok {e : Checked α} {a : α} (he : e = .ok a) :
    Follows (Scanner.check e) (Pure.pure a) := by
  subst he
  exact Follows.pure a

theorem Follows.require_bind {ok : Bool} {cause : Corruption} {f : Unit → Scanner β}
    {g : Unit → Reader β} (hf : ok = true → Follows (f ()) (g ())) :
    Follows (require ok cause >>= f) (Reader.require ok cause >>= g) := by
  intro bytes pos hlength hpos
  rw [bind_apply, Reader.bind_apply, require, check, Reader.require]
  cases ok with
  | false => exact .refused cause
  | true => exact hf rfl bytes pos hlength hpos

/-- A comparison with the number of bytes left. -/
theorem Follows.remaining_bind {n : Nat} {ok : Nat → Bool} {cause : Corruption}
    (hok : ∀ left < 2 ^ 63, ok left = decide (n ≤ left)) {f : Unit → Scanner β}
    {g : Unit → Reader β} (hf : Follows (f ()) (g ())) :
    Follows (remaining >>= fun left => require (ok left) cause >>= f)
      (Reader.requireLeft n cause >>= g) := by
  intro bytes pos hlength hpos
  have hleft : (bytes.drop pos).length = bytes.length - pos := List.length_drop
  rw [bind_apply, remaining, Checked.minus_of_le hpos, Reader.bind_apply, Reader.requireLeft,
    Bytes.hasAtLeast_eq, hleft]
  show Agrees bytes ((require (ok (bytes.length - pos)) cause >>= f) bytes pos) _
  rw [bind_apply, require, check, hok _ (by omega)]
  cases decide (n ≤ bytes.length - pos) with
  | false => exact .refused cause
  | true => exact hf bytes pos hlength hpos

/-- The end of the buffer. -/
theorem Follows.finish_bind {f : Unit → Scanner β} {g : Unit → Reader β}
    (hf : Follows (f ()) (g ())) :
    Follows (remaining >>= fun left => require (left = 0) (.trailing left) >>= f)
      (Reader.finish >>= g) := by
  intro bytes pos hlength hpos
  have hleft : (bytes.drop pos).length = bytes.length - pos := List.length_drop
  rw [bind_apply, remaining, Checked.minus_of_le hpos, Reader.bind_apply, ← hleft]
  show Agrees bytes ((require _ _ >>= f) bytes pos) _
  rw [bind_apply, require, check]
  have hrest := hf bytes pos hlength hpos
  cases hbytes : bytes.drop pos with
  | nil =>
    rw [hbytes] at hrest
    exact hrest
  | cons b rest => exact .refused _

/-! ## The parts of a buffer -/

theorem follows_take (n : Nat) (part : String) : Follows (take n part) (Reader.take n part) := by
  intro bytes pos hlength hpos
  rw [Reader.take_apply, List.length_drop, take, Checked.minus_of_le hpos]
  by_cases h : n ≤ bytes.length - pos
  · have hstop : pos + n ≤ bytes.length := by omega
    rw [if_pos h, List.drop_drop]
    rw [Checked.ok_bind, Checked.require_of (decide_eq_true h), Checked.ok_bind,
      Checked.size_of_lt (by omega), Checked.ok_bind, Checked.slice_of_le (by omega) hstop,
      Nat.add_sub_cancel_left]
    exact .ok _ hstop
  · rw [if_neg h]
    rw [Checked.ok_bind, Checked.require_of_not (by simpa using h)]
    exact .refused _

theorem follows_nat (width : Nat) (part : String) :
    Follows (nat width part) (Reader.nat width part) := by
  refine (follows_take width part).bind_of (Reader.yields_take width part) fun bytes hlength => ?_
  rw [if_pos hlength]
  exact Follows.pure _

theorem follows_string (part : String) : Follows (string part) (Reader.string part) := by
  refine (follows_nat 4 part).bind fun length => (follows_take length part).bind fun bytes => ?_
  cases bytes.toString? with
  | some s => exact Follows.pure s
  | none => exact Follows.fail _

theorem Follows.replicate (h : Follows x y) (n : Nat) :
    Follows (replicate x n) (Reader.replicate y n) := by
  induction n with
  | zero => exact Follows.pure []
  | succ n ih => exact h.bind fun a => ih.bind fun rest => Follows.pure (a :: rest)

/-- A parser that is given the whole of the bytes does what a reader does: it finds the same value,
    which was stored in the bytes that the reader takes, or refuses the bytes for the same cause. -/
inductive Parses (storedSize : α → Nat) (bytes : Bytes) :
    Checked α → Except Corruption (α × Bytes) → Prop where
  | ok (a : α) (h : storedSize a ≤ bytes.length) :
    Parses storedSize bytes (.ok a) (.ok (a, bytes.drop (storedSize a)))
  | refused (cause : Corruption) : Parses storedSize bytes (Checked.fail cause) (.error cause)

theorem follows_within {parse : Bytes → Checked α} {storedSize : α → Nat}
    (h : ∀ bytes : Bytes, bytes.length < 2 ^ 63 → Parses storedSize bytes (parse bytes) (y bytes)) :
    Follows (within parse storedSize) y := by
  intro bytes pos hlength hpos
  have hrest : (bytes.drop pos).length = bytes.length - pos := List.length_drop
  have hparses := h (bytes.drop pos) (by omega)
  rw [within, Checked.slice_rest hpos, Checked.ok_bind]
  generalize parse (bytes.drop pos) = parsed at hparses ⊢
  generalize y (bytes.drop pos) = read at hparses ⊢
  cases hparses with
  | ok a hsize =>
    rw [Checked.ok_bind, Checked.size_of_lt (by omega), List.drop_drop]
    exact .ok a (by omega)
  | refused cause => exact .refused cause

end Scanner

end ColumnStore
