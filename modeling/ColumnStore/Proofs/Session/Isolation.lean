import ColumnStore.Proofs.Session.Generations
import ColumnStore.Proofs.Session.Load

/-!
# Isolation across loads

A transaction that outlives a load works on the contents it was opened on, and the collection on
those that were loaded. Neither notices what is done to the other.

* `Session.Indistinguishable`: two sessions between which nothing done from now on shows a
  difference, apart from what goes through the first transactions;
  `Session.Parts.indistinguishable`: so it is when they have the same part since some load;
* `Reachable.run_load`: after a load the collection is the one it would be if transactions from
  before had done nothing, and these are what they would be after any other load with anything else
  done to the collection.
-/

namespace ColumnStore

namespace Session

/-- Two sessions show the same, apart from the first transactions: the contents, with columns,
    indexes, dictionaries and both numbers of rows, the rows and the bytes that stand for them, the
    answer to every operation and what can be read through the other transactions. -/
structure ShowsSame (first : Nat) (s s' : Session) : Prop where
  config : s'.collection.config = s.collection.config
  table : s'.collection.table = s.collection.table
  fetch : ∀ row, s'.collection.fetch row = s.collection.fetch row
  valueAt : ∀ column row, s'.collection.valueAt column row = s.collection.valueAt column row
  snapshot : s'.collection.snapshot = s.collection.snapshot
  answers : ∀ op, op.isOlder first = false → (s'.step op).1 = (s.step op).1
  size : s'.transactions.size = s.transactions.size
  reads : ∀ id t, first ≤ id → s.transactions[id]? = some t →
    ∃ t', s'.transactions[id]? = some t' ∧ t.ReadsAlike s.collection t' s'.collection

/-- Two sessions show the same whatever is done with both. -/
def Indistinguishable (first : Nat) (s s' : Session) : Prop :=
  ∀ ops, (s.run ops).ShowsSame first (s'.run ops)

variable {s s' : Session} {base base' first : Nat}

theorem Parts.showsSame (h : s.Parts base first) (h' : s'.Parts base' first)
    (hsince : s'.since base' first = s.since base first) : s.ShowsSame first s' := by
  have hcollection : s'.collection.since base' = s.collection.since base :=
    congrArg Session.collection hsince
  have hconfig : s'.collection.config = s.collection.config :=
    (congrArg Collection.config hcollection :)
  have htable : s'.collection.table = s.collection.table := (congrArg Collection.table hcollection :)
  have hget (id : Nat) := congrArg (fun part => part.transactions[id]?) hsince
  refine ⟨hconfig, htable, fun row => ?_, fun column row => ?_, ?_, fun op hop => ?_, ?_,
    fun id t hid ht => ?_⟩
  · rw [Collection.fetch, Collection.fetch, hconfig, htable]
  · rw [Collection.valueAt, Collection.valueAt, hconfig, htable]
  · rw [Collection.snapshot, Collection.snapshot, Collection.chunkSize, Collection.chunkSize,
      hconfig, htable]
  · have hstep := congrArg (fun part => (part.step op).1) hsince
    simpa only [h.step_since hop, h'.step_since hop] using hstep
  · have hsize := congrArg (fun part => part.transactions.size) hsince
    simpa only [since, Array.size_mapIdx] using hsize
  · obtain ⟨-, hfound, hmatches⟩ := h.later hid ht
    have hsame : (s'.since base' first).transactions[id]? = some (t.since base) :=
      (hget id).trans hfound
    cases ht' : s'.transactions[id]? with
    | none => simp [getElem?_since, ht'] at hsame
    | some t' =>
      obtain ⟨-, hfound', hmatches'⟩ := h'.later hid ht'
      refine ⟨t', rfl, hmatches.readsAlike.trans ?_⟩
      have hback := hmatches'.readsAlike.symm
      rwa [hsince, Option.some.inj (hfound'.symm.trans hsame)] at hback

/-- Sessions with the same part since some load cannot be told apart by what goes on in it. -/
theorem Parts.indistinguishable (h : s.Parts base first) (hwf : s.WellFormed)
    (h' : s'.Parts base' first) (hwf' : s'.WellFormed)
    (hsince : s'.since base' first = s.since base first) : s.Indistinguishable first s' := by
  intro ops
  refine (h.run hwf ops).showsSame (h'.run hwf' ops) ?_
  rw [h.since_run hwf, h'.since_run hwf', hsince]

/-- A load parts the transactions there are from those that will be opened. -/
theorem WellFormed.parts_load (h : s.WellFormed) {source : Source}
    (hload : (s.step (.load source)).1 = Except.ok ()) :
    (s.step (.load source)).2.Parts (s.collection.generation + 1) s.transactions.size ∧
      (s.step (.load source)).2.before (s.collection.generation + 1) s.transactions.size =
        ⟨⟨s.collection.config, .empty, s.collection.retired.push s.collection.table⟩,
          s.transactions⟩ := by
  have hanswer : (s.collection.load source).1 = .ok () := hload
  rw [Session.step]
  rcases s.collection.load_outcome source with ⟨e, hcase⟩ | ⟨table, -, hcase⟩
  · rw [hcase] at hanswer
    cases hanswer
  · have hsize : (s.collection.replaceTable table).generation = s.collection.generation + 1 :=
      Array.size_push ..
    rw [hcase]
    refine ⟨⟨hsize.ge, le_rfl, fun id t ht => ?_⟩, ?_⟩
    · have hle := h.generation_le t (Array.mem_of_getElem? ht)
      have hlt := (Array.getElem?_eq_some_iff.mp ht).1
      exact ⟨fun _ => hlt, fun _ => Nat.lt_succ_of_le hle⟩
    · have hall (n : Nat) (hn : n = (s.collection.retired.push s.collection.table).size) :
          (s.collection.retired.push s.collection.table).extract 0 n =
            s.collection.retired.push s.collection.table := by
        rw [hn, Array.extract_size]
      show Session.mk (Collection.mk _ _ _) _ = _
      rw [Array.extract_size]
      congr 2
      exact hall _ (Array.size_push ..).symm

end Session

/-- After a load, whatever is done then.

    The collection does not notice what transactions opened before the load do: had some of them
    done nothing since, it would show the same, and so would every later transaction, then and after
    anything else that is done.

    The transactions opened before the load do not notice anything else: with other bytes loaded and
    other things done, but the same through these transactions in the same order, each of them is
    the same, reads the same and answers the same. -/
theorem Reachable.run_load {s : Session} (h : Reachable s) {source : Source}
    (hload : (s.step (.load source)).1 = Except.ok ()) (ops : List Op) :
    (∀ idle : Nat → Bool, (∀ id, idle id = true → id < s.transactions.size) →
      ((s.step (.load source)).2.run ops).Indistinguishable s.transactions.size
        ((s.step (.load source)).2.run (ops.filter fun op => !op.transaction?.any idle))) ∧
    ∀ source' ops', (s.step (.load source')).1 = Except.ok () →
      (ops'.filter fun op => op.isOlder s.transactions.size) =
        ops.filter (fun op => op.isOlder s.transactions.size) →
      ∀ id < s.transactions.size,
        ∃ t, ((s.step (.load source)).2.run ops).transactions[id]? = some t ∧
          ((s.step (.load source')).2.run ops').transactions[id]? = some t ∧
          t.ReadsAlike ((s.step (.load source)).2.run ops).collection t
            ((s.step (.load source')).2.run ops').collection ∧
          ∀ op, op.transaction? = some id →
            (((s.step (.load source')).2.run ops').step op).1 =
              (((s.step (.load source)).2.run ops).step op).1 := by
  have hwf := h.wellFormed
  obtain ⟨hparts, hbefore⟩ := hwf.parts_load hload
  have hloaded := hwf.step (.load source)
  refine ⟨fun idle hidle => ?_, fun source' ops' hload' hops id hid => ?_⟩
  · refine (hparts.run hloaded ops).indistinguishable ((h.step _).run ops).wellFormed
      (hparts.run hloaded _) ((h.step _).run _).wellFormed ?_
    rw [hparts.since_run hloaded, hparts.since_run hloaded, List.filter_filter]
    congr 1
    refine List.filter_congr fun op _ => ?_
    rw [Op.isOlder]
    cases op.transaction? with
    | none => rfl
    | some id =>
      show (!decide _ && !idle id) = !decide _
      cases hid : idle id with
      | false => rw [Bool.not_false, Bool.and_true]
      | true => rw [decide_eq_true (hidle id hid)]; rfl
  · obtain ⟨hparts', hbefore'⟩ := hwf.parts_load hload'
    have hloaded' := hwf.step (.load source')
    have hrun := hparts.run hloaded ops
    have hrun' := hparts'.run hloaded' ops'
    have hsame : ((s.step (.load source')).2.run ops').before (s.collection.generation + 1)
          s.transactions.size =
        ((s.step (.load source)).2.run ops).before (s.collection.generation + 1)
          s.transactions.size := by
      rw [hparts.before_run hloaded, hparts'.before_run hloaded', hbefore, hbefore', hops]
    have hlt : id < ((s.step (.load source)).2.run ops).transactions.size :=
      hid.trans_le hrun.first_le
    obtain ⟨t, ht⟩ : ∃ t, ((s.step (.load source)).2.run ops).transactions[id]? = some t :=
      ⟨_, Array.getElem?_eq_getElem hlt⟩
    obtain ⟨-, -, hmatches⟩ := hrun.earlier hid ht
    have ht' : ((s.step (.load source')).2.run ops').transactions[id]? = some t := by
      rw [← Session.getElem?_before hid, hsame, Session.getElem?_before hid]
      exact ht
    obtain ⟨-, -, hmatches'⟩ := hrun'.earlier hid ht'
    rw [hsame] at hmatches'
    refine ⟨t, ht, ht', hmatches.readsAlike.trans hmatches'.readsAlike.symm, fun op hop => ?_⟩
    have hold : op.isOlder s.transactions.size = true := by
      rw [Op.isOlder, hop]
      exact decide_eq_true hid
    have hstep := congrArg (fun part => (part.step op).1) hsame
    simpa only [hrun.step_before hold, hrun'.step_before hold] using hstep

/-- A transaction on the flags deletes everything after they were loaded anew: the collection keeps
    its rows, and a row inserted meanwhile does not come to the transaction. -/
theorem run_load_flags :
    let s := (Session.flags.step .begin).2
    let loaded := (s.step (.load ⟨Session.flags.collection.snapshot, none⟩)).2
    (∀ row, loaded.collection.fetch row = (loaded.run [.deleteAll 0]).collection.fetch row) ∧
      ∃ t, (loaded.run [.deleteAll 0]).transactions[0]? = some t ∧
        (loaded.run [.insert [("flag", .bool true)], .deleteAll 0]).transactions[0]? = some t := by
  intro s loaded
  have hload : (s.step (.load ⟨Session.flags.collection.snapshot, none⟩)).1 = Except.ok () :=
    congrArg Prod.fst (Collection.load_of_decode
      (Snapshot.decode_encode reachable_flags.wellFormed.table fits_flags _))
  obtain ⟨hpresent, hpast⟩ := (reachable_flags.step .begin).run_load hload [.deleteAll 0]
  refine ⟨(hpresent (· == 0) (fun id hid => ?_) []).fetch, ?_⟩
  · rw [beq_iff_eq.mp hid]
    decide
  · obtain ⟨t, ht, ht', -⟩ := hpast _ [.insert [("flag", .bool true)], .deleteAll 0] hload rfl 0
      (by decide)
    exact ⟨t, ht, ht'⟩

end ColumnStore
