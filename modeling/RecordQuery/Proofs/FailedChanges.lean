import RecordQuery.Proofs.Collisions

/-!
# `RecordQuery.Proofs.FailedChanges`: a change that fails changes nothing

A declaration that fails leaves the store as it was, whatever has happened before. So does an
insert, unless there are integers that are rounded to a floating-point number among what was
inserted: then the order of the keys contradicts itself, the check for collisions overlooks a key
that adding the keys comes upon, and the keys that were added by then stay.

The writes are made in place, `Writing`, and a failed one leaves the state that it has reached by
then. An insert checks for collisions before it writes, and adds its keys to one index after the
other; `Store.leftBehind` is what is there if that fails midway. So there are two questions: what a
failed change leaves (`write_error`), and when an insert gets past its check and fails all the same.
`Store.SeparatedIn` excludes the second, and it is asked of inserts only, and only of those that
pass the check.

What has happened before is any list of `Access`: changes, failed ones included, and direct writes
to indexes, which may put entries there that no record has. `Store.Numbered` is the invariant of all
of them.

The theorems:

* `Store.write_error`: what a failed change leaves, on any store.
* `Store.Numbered.access`: numbers that are separated keep the keys of every index sorted.
* `Store.unchanged_of_failure`: a failed change leaves the store as it was.
-/

set_option autoImplicit false

namespace RecordQuery

namespace Store

/-- The numbers in the access are among those that `p` and `q` allow: those of the fields of an
insert, and those of a key that is put or removed. -/
def Access.NumbersIn (p : Int64 → Prop) (q : Binary64 → Prop) : Access → Prop
  | .change made => made.Admitted fun fields => Value.EntriesIn p q fields
  | .write _ (.put key _) => Value.ItemsIn p q key
  | .write _ (.remove key _) => Value.ItemsIn p q key
  | .write _ .clear => True

/-- No two integers in `fields`, or in the `accesses` before, are rounded to one of the
floating-point numbers in there (`Value.Separated`). Without floating-point numbers this holds of
everything. -/
def SeparatedIn (accesses : List Access) (fields : Fields) : Prop :=
  ∃ p q, Value.Separated p q ∧ Value.EntriesIn p q fields ∧
    ∀ access ∈ accesses, access.NumbersIn p q

/-- What a failed `Change.write` leaves: the store as it was, or what a failed insert leaves behind.
The cases are the changes, and all but the insert check before they write. -/
theorem write_error {store after : Store} {change : Change} {failure : Failure}
    (hfail : change.write.run.run store = (.error failure, after)) :
    after = store ∨ ∃ className fields, change = .insert className fields ∧
      store.insert className fields = .error failure ∧
      after = store.leftBehind className fields := by
  have hsame {result : Except Failure Store}
      (h : store.allOrNothing result = (.error failure, after)) : after = store := by
    cases result with
    | error _ => exact ((Prod.ext_iff.mp h).2).symm
    | ok _ => cases (Prod.ext_iff.mp h).1
  -- only an insert writes before it can fail
  cases change with
  | createClass name superclass clusters isAbstract =>
      rw [Change.write, Writing.run_createClass] at hfail
      exact .inl (hsame hfail)
  | linkProperty className property target =>
      rw [Change.write, Writing.run_linkProperty] at hfail
      exact .inl (hsame hfail)
  | createIndex name kind definition =>
      rw [Change.write, Writing.run_createIndex] at hfail
      exact .inl (hsame hfail)
  | insert className fields =>
      rw [Change.write, Steps.run_bind, Writing.run_insert] at hfail
      cases hinsert : store.insert className fields with
      | error _ =>
          rw [hinsert] at hfail
          cases hfail
          exact .inr ⟨className, fields, rfl, hinsert, rfl⟩
      | ok inserted =>
          rw [hinsert] at hfail
          cases hfail
  | delete rid => cases hfail
  | failIndex name failing => cases hfail
  | failCluster id => cases hfail

section

variable {p : Int64 → Prop} {q : Binary64 → Prop}

/-- The numbers in the records and in the keys of all indexes are among those that `p` and `q`
allow, and the keys are sorted. The entries may be others than those of the records. -/
structure Numbered (p : Int64 → Prop) (q : Binary64 → Prop) (store : Store) : Prop where
  /-- Classes, clusters and records are as changes keep them. -/
  sound : store.Sound
  /-- The numbers in live records are among the given ones. -/
  live : ∀ r, store.Live r → Value.EntriesIn p q r.fields
  /-- So are those in the keys, which ascend. -/
  sorted : store.SortedIn fun key => Value.ItemsIn p q key

/-- `StoredIndex.write` keeps the keys of an index sorted, where numbers are `Separated`. -/
theorem sortedIn_write (hseparated : Value.Separated p q) {index : StoredIndex}
    (h : index.buckets.SortedIn fun key => Value.ItemsIn p q key) {name : String}
    {write : IndexWrite} (hwrite : (Access.write name write).NumbersIn p q) :
    (index.write write).buckets.SortedIn fun key => Value.ItemsIn p q key :=
  StoredIndex.sortedIn_write (Key.totalOn_separated hseparated) h (by cases write <;> exact hwrite)

/-- Whatever the store meets with, its keys stay sorted while the numbers are separated. The cases
are the changes and the writes of `Access`. -/
theorem Numbered.access (hseparated : Value.Separated p q) {store : Store}
    (h : store.Numbered p q) {access : Access} (haccess : access.NumbersIn p q) :
    (store.access access).Numbered p q := by
  cases access with
  | change made =>
      exact ⟨h.sound.change made, h.sound.admits_change h.live haccess,
        (StoredIndex.invariant_sortedIn hseparated).change h.live h.sorted haccess⟩
  | write name write =>
      refine ⟨h.sound.access (.write name write), h.live, fun changed hchanged => ?_⟩
      obtain ⟨index, hindex, rfl⟩ := List.mem_map.mp hchanged
      split
      · exact sortedIn_write hseparated (h.sorted index hindex) haccess
      · exact h.sorted index hindex

/-- After any accesses with separated numbers the store is `Numbered`, so the keys of all indexes
are sorted. The induction is on the accesses. -/
theorem numbered_ofAccesses (hseparated : Value.Separated p q) {accesses : List Access}
    (haccesses : ∀ access ∈ accesses, access.NumbersIn p q) :
    (ofAccesses accesses).Numbered p q := by
  refine List.foldlRecOn accesses Store.access ⟨sound_empty, ?_, ?_⟩
    fun _ h access haccess => h.access hseparated (haccesses access haccess)
  · rintro r ⟨c, hc, -⟩
    cases hc
  · intro index hindex
    cases hindex

end

/-- Whatever a store has met with, `accesses`, a change of it that fails leaves classes, clusters,
records, indexes and counters as they were, and an insert whose record collides with none succeeds.
Both hold as long as the numbers are separated among which an insert comes to its keys,
`SeparatedIn`; a change other than an insert, and an insert that collides, needs nothing. -/
theorem unchanged_of_failure (accesses : List Access) :
    (∀ (change : Change) failure after,
      change.write.run.run (ofAccesses accesses) = (.error failure, after) →
      (∀ className fields record, change = .insert className fields →
        (ofAccesses accesses).newRecord className fields = .ok record →
        (ofAccesses accesses).collides className record = false → SeparatedIn accesses fields) →
      after = ofAccesses accesses) ∧
    ∀ className fields record, (ofAccesses accesses).newRecord className fields = .ok record →
      (ofAccesses accesses).collides className record = false → SeparatedIn accesses fields →
      ∃ after, (Writing.insert className fields).run.run (ofAccesses accesses) =
        (.ok record.rid, after) := by
  -- a record that collides with none is taken by every index
  have hsucceeds : ∀ className fields record,
      (ofAccesses accesses).newRecord className fields = .ok record →
      (ofAccesses accesses).collides className record = false → SeparatedIn accesses fields →
      ∃ after, (ofAccesses accesses).insert className fields = .ok (record.rid, after) := by
    rintro className fields record hrecord hfree ⟨p, q, hseparated, hfields, haccesses⟩
    exact insert_of_free (Key.totalOn_separated hseparated)
      (numbered_ofAccesses hseparated haccesses).sorted hrecord
      (fun index _ key hkey => itemsIn_of_newRecord hfields hrecord hkey) hfree
  refine ⟨fun change failure after hfail hnumbers => ?_,
    fun className fields record hrecord hfree hseparated => ?_⟩
  · rcases write_error hfail with hsame | ⟨className, fields, rfl, herror, rfl⟩
    · exact hsame
    · refine leftBehind_of_error herror fun record hrecord hfree => ?_
      obtain ⟨other, hok⟩ := hsucceeds className fields record hrecord hfree
        (hnumbers className fields record rfl hrecord hfree)
      exact ⟨record.rid, other, hok⟩
  · obtain ⟨after, hok⟩ := hsucceeds className fields record hrecord hfree hseparated
    exact ⟨after, by rw [Writing.run_insert, hok]⟩

/-- A unique index with the float 0.5 in it, and an entry that no record has. -/
def halfAccesses : List Access := [
  .change (.createClass "A" none 1 false),
  .change (.createIndex "A.x" .unique ⟨"A", ["x"], false, .keys⟩),
  .change (.insert "A" [("x", .list [.int 1, .float ⟨0x3fe0000000000000⟩])]),
  .write "A.x" (.put [.int 7] ⟨1, 9⟩)]

/-- After `halfAccesses`, fields with the same float are refused, and nothing is left of their first
key, 0; fields with another one are not. -/
theorem unchanged_halfAccesses :
    (∃ failure after,
      (Change.insert "A" [("x", .list [.int 0, .float ⟨0x3fe0000000000000⟩])]).write.run.run
        (ofAccesses halfAccesses) = (.error failure, after) ∧ after = ofAccesses halfAccesses) ∧
    ∃ after, (Writing.insert "A" [("x", .float ⟨0x4004000000000000⟩)]).run.run
      (ofAccesses halfAccesses) = (.ok ⟨1, 1⟩, after) := by
  -- integers up to `2 ^ 53` are separated from every other one
  have hsmall (fields : Fields)
      (hfields : Value.EntriesIn (fun n => n.toInt.natAbs ≤ 2 ^ 53) (fun _ => True) fields) :
      SeparatedIn halfAccesses fields := by
    refine ⟨_, _, Value.separated_of_natAbs_le fun _ hn => hn, hfields, ?_⟩
    simp [halfAccesses, Access.NumbersIn, Change.Admitted, Value.EntriesIn, Value.ItemsIn,
      Value.NumbersIn]
  obtain ⟨hfails, hsucceeds⟩ := unchanged_of_failure halfAccesses
  constructor
  · have hrefused :
        ((Change.insert "A" [("x", .list [.int 0, .float ⟨0x3fe0000000000000⟩])]).write.run.run
          (ofAccesses halfAccesses)).1 = .error (.invalid .duplicateKey) := by decide +kernel
    refine ⟨.invalid .duplicateKey, _, Prod.ext hrefused rfl, ?_⟩
    refine hfails _ _ _ (Prod.ext hrefused rfl) ?_
    rintro className fields record heq - -
    cases heq
    exact hsmall _ (by simp [Value.EntriesIn, Value.ItemsIn, Value.NumbersIn])
  · refine hsucceeds "A" _ ⟨⟨1, 1⟩, "A", [("x", .float ⟨0x4004000000000000⟩)]⟩ rfl ?_ ?_
    · decide +kernel
    · exact hsmall _ (by simp [Value.EntriesIn, Value.NumbersIn])

/-- The points of a unique index that fill one node of its `LeveledList`. -/
def pointAccesses : List Access :=
  .change (.createClass "A" none 1 false) ::
  .change (.createIndex "A.xy" .unique ⟨"A", ["x", "y"], false, .keys⟩) ::
  ([(0, 0), (0, 1), (0, 2), (9007199254740992, 2), (9007199254740993, 0), (9007199254740993, 1),
    (9007199254740993, 2), (9007199254740993, 3), (9007199254740993, 4), (9007199254740993, 5),
    (9007199254740993, 6)].map fun (x, y) =>
      .change (.insert "A" [("x", .int x), ("y", .int y)]))

/-- Two points, the second of which equals one of `pointAccesses`: both large integers are rounded
to their first coordinate. -/
def roundedPoints : Fields :=
  [("x", .float ⟨0x4340000000000000⟩), ("y", .list [.int (-5), .int 1])]

/-- The number of entries of every index. What a failed insert leaves behind shows in it. -/
def entryCounts (store : Store) : List Nat :=
  store.indexes.map fun index => (index.buckets.elements.flatMap (·.rids)).length

/-- Without separated numbers an insert whose record collides with none fails, and one of its two
keys stays in the index: `entryCounts` goes from 11 to 12. -/
theorem leftBehind_roundedPoints :
    ((ofAccesses pointAccesses).newRecord "A" roundedPoints).map
      ((ofAccesses pointAccesses).collides "A") = .ok false ∧
    ((Change.insert "A" roundedPoints).write.run.run (ofAccesses pointAccesses)).1 =
      .error (.invalid .duplicateKey) ∧
    entryCounts (ofAccesses pointAccesses) = [11] ∧
    entryCounts ((Change.insert "A" roundedPoints).write.run.run (ofAccesses pointAccesses)).2 =
      [12] := by
  decide +kernel

end Store

end RecordQuery
