import RecordQuery.Proofs.IndexInvariants

/-!
# `RecordQuery.Proofs.Collisions`: inserts that are not refused

`Store.insert` looks for collisions in all indexes (`Store.collides`) before it adds a key, and
`StoredIndex.put` looks again for each key. The second look could find what the first one has
missed: two keys of the record itself that are equal to the index, though they were not equal when
repeats were dropped. Then the insert fails after it has added keys.

Where the order of keys is total this does not happen. `conflicts_iff_finds` says when an index
refuses a key: for another record only. The keys of one record have one identity, so they do not
collide with each other (`not_conflicts_insert`, `putEach_ok`), and an insert that passes the check
succeeds (`Store.insert_of_free`). So one that fails has written nothing
(`Store.leftBehind_of_error`). Beyond `2 ^ 53` the order is not total. There `conflicts` may look at
a bucket that `put` does not come to, and the module says nothing.

The theorems:

* `StoredIndex.conflicts_iff_finds`: when an index refuses a key.
* `StoredIndex.putEach_ok`: an index that refuses none of the keys of a record takes them all.
* `Store.insert_of_free`: an insert that passes the check for collisions succeeds.
* `Store.leftBehind_of_error`: so an insert that fails has not begun to write.
* `Store.insert_of_exact`: the case of fields without floating-point numbers.
-/

set_option autoImplicit false

namespace RecordQuery

namespace StoredIndex

section

variable {p : Key → Prop} (htotal : TotalOn Key.compare p) {index : StoredIndex}
  (hsorted : index.buckets.SortedIn p) {key : Key} (hkey : p key) {rid : Rid}

include htotal hsorted hkey

/-- `conflicts` refuses a key if the index is unique, the key is not null, and it finds the key for
another record. -/
theorem conflicts_iff_finds :
    index.conflicts key rid = true ↔ index.kind.isUnique = true ∧ key.isNull = false ∧
      ∃ other, index.buckets.Finds key other ∧ other ≠ rid := by
  unfold conflicts
  rw [Bool.and_eq_true, Bool.and_eq_true, Bool.not_eq_true', and_assoc]
  refine and_congr_right fun _ => and_congr_right fun _ => ?_
  simp only [← hsorted.mem_get? htotal hkey]
  cases index.buckets.get? key with
  | none => simp
  | some rids => simp [List.any_eq_true]

/-- An entry of the record itself is no conflict. So a key of the record that was not refused before
the entry `added` is not refused after it, whether or not the two keys are equal. -/
theorem not_conflicts_insert {added : Key} (hadded : p added)
    (hfree : ¬index.conflicts key rid = true) :
    ¬{ index with buckets := index.buckets.insert added rid }.conflicts key rid = true := by
  rw [conflicts_iff_finds htotal hsorted hkey] at hfree
  rw [conflicts_iff_finds htotal (hsorted.insert htotal hadded rid) hkey]
  rintro ⟨hunique, hnull, other, hother, hne⟩
  rcases (hsorted.finds_insert htotal hadded hkey).mp hother with hother | ⟨-, rfl⟩
  · exact hfree ⟨hunique, hnull, other, hother, hne⟩
  · exact hne rfl

end

section

variable {p : Key → Prop} (htotal : TotalOn Key.compare p)

include htotal

/-- An index that refuses none of the keys of a record at first takes them all. The induction is on
the keys. `not_conflicts_insert` carries `hfree` over to the index with one key more. -/
theorem putEach_ok {index : StoredIndex} (hsorted : index.buckets.SortedIn p) {keys : List Key}
    {rid : Rid} (hkeys : ∀ key ∈ keys, p key)
    (hfree : ∀ key ∈ keys, ¬index.conflicts key rid = true) :
    (index.putEach rid keys).1 = .ok () := by
  induction keys generalizing index with
  | nil => rfl
  | cons key keys ih =>
      obtain ⟨hkey, hrest⟩ := List.forall_mem_cons.mp hkeys
      obtain ⟨hfirst, hothers⟩ := List.forall_mem_cons.mp hfree
      rw [putEach, put, if_neg hfirst]
      exact ih (hsorted.insert htotal hkey rid) hrest fun other hother =>
        not_conflicts_insert htotal hsorted (hrest other hother) hkey (hothers other hother)

end

/-- Keys with separated numbers that come and go leave the buckets sorted. This is the `Invariant`
on which the order of all indexes of a reachable store rests. -/
theorem invariant_sortedIn {p : Int64 → Prop} {q : Binary64 → Prop} (h : Value.Separated p q) :
    Invariant (Value.EntriesIn p q) fun index =>
      index.buckets.SortedIn fun key => Value.ItemsIn p q key where
  empty _ _ _ := Buckets.sortedIn_empty _
  put {_ _ _ record} hfields hkey hsorted hput := by
    rw [put_ok hput]
    exact hsorted.insert (Key.totalOn_separated h) (hkey.itemsIn hfields) record.rid
  remove {_ _ record} hfields hkey hsorted :=
    hsorted.erase (Key.totalOn_separated h) (hkey.itemsIn hfields) record.rid
  switch _ hsorted := hsorted

end StoredIndex

namespace Store

/-- The numbers in the keys of a `newRecord` are those in the fields that it was made from. -/
theorem itemsIn_of_newRecord {p : Int64 → Prop} {q : Binary64 → Prop} {store : Store}
    {className : String} {fields : Fields} (hfields : Value.EntriesIn p q fields) {record : Record}
    (hrecord : store.newRecord className fields = .ok record) {index : StoredIndex} {key : Key}
    (hkey : key ∈ index.keysFor record) : Value.ItemsIn p q key := by
  obtain ⟨c, -, -, hplace⟩ := newRecord_ok hrecord
  refine (StoredIndex.keyOf_of_mem_keysFor hkey).itemsIn ?_
  rw [hplace]
  exact hfields

/-- The keys of all indexes have the property `p` and are strictly ascending. -/
def SortedIn (p : Key → Prop) (store : Store) : Prop :=
  ∀ index ∈ store.indexes, index.buckets.SortedIn p

section

variable {p : Key → Prop} (htotal : TotalOn Key.compare p) {store : Store}
  (hsorted : store.SortedIn p)

include htotal hsorted

/-- `putKeys` adds all keys of a record that collides with none (`hfree`), in every index that
covers its class. -/
theorem putKeys_of_free {record : Record}
    (hkeys : ∀ index ∈ store.indexes, ∀ key ∈ index.keysFor record, p key)
    (hfree : store.collides record.className record = false) :
    (StoredIndex.putKeys (store.schema.ancestors record.className) record store.indexes).1 =
      .ok () := by
  refine StoredIndex.putKeys_ok fun index hindex hcovers => ?_
  refine StoredIndex.putEach_ok htotal (hsorted index hindex) (hkeys index hindex) ?_
  intro key hkey hconflicts
  have hclass : index ∈ store.indexesOf record.className := List.mem_filter.mpr ⟨hindex, hcovers⟩
  refine List.any_eq_false.mp hfree index hclass (List.any_eq_true.mpr ⟨key, hkey, hconflicts⟩)

variable {className : String} {fields : Fields}

/-- An insert succeeds if its record collides with none. `hrecord` says that the record can be made
at all: the class is declared, is not abstract and has a cluster. -/
theorem insert_of_free {record : Record}
    (hrecord : store.newRecord className fields = .ok record)
    (hkeys : ∀ index ∈ store.indexes, ∀ key ∈ index.keysFor record, p key)
    (hfree : store.collides className record = false) :
    ∃ after, store.insert className fields = .ok (record.rid, after) := by
  obtain ⟨c, -, -, hplace⟩ := newRecord_ok hrecord
  have hclass : record.className = className := by rw [hplace]
  have hput := putKeys_of_free htotal hsorted hkeys (hclass.symm ▸ hfree)
  rw [insert_eq, hrecord]
  dsimp only
  rw [hfree, addKeys_eq, hput]
  exact ⟨_, rfl⟩

end

/-- An insert that fails has not begun to write, if one whose record collides with none succeeds
(`hsucceeds`). Then the failure came from making the record or from the check, and `leftBehind` is
the store as it was. -/
theorem leftBehind_of_error {store : Store} {className : String} {fields : Fields}
    {failure : Failure} (hfail : store.insert className fields = .error failure)
    (hsucceeds : ∀ record, store.newRecord className fields = .ok record →
      store.collides className record = false →
      ∃ rid after, store.insert className fields = .ok (rid, after)) :
    store.leftBehind className fields = store := by
  unfold leftBehind
  split
  · rfl
  next record hrecord =>
    split
    · rfl
    next hfree =>
      obtain ⟨rid, after, hok⟩ := hsucceeds record hrecord (Bool.eq_false_iff.mpr hfree)
      rw [hok] at hfail
      cases hfail

/-- An insert of exact fields succeeds if its record collides with none. This is `insert_of_free`
with the order of exact keys, which is total. -/
theorem insert_of_exact {store : Store}
    (hordered : ∀ index ∈ store.indexes, index.buckets.Ordered) {className : String}
    {fields : Fields} (hfields : Value.entriesExact fields = true) {record : Record}
    (hrecord : store.newRecord className fields = .ok record)
    (hfree : store.collides className record = false) :
    ∃ after, store.insert className fields = .ok (record.rid, after) :=
  insert_of_free Key.totalOn_exact (fun index hindex => (hordered index hindex).sortedIn) hrecord
    (fun _ _ _ hkey => Value.areExact_of_itemsIn
      (itemsIn_of_newRecord (Value.entriesIn_of_entriesExact hfields) hrecord hkey)) hfree

end Store

end RecordQuery
