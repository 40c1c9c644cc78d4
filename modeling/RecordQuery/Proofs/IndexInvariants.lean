import RecordQuery.Proofs.RecordKeys
import RecordQuery.Proofs.Reachable

/-!
# `RecordQuery.Proofs.IndexInvariants`: what changes do to each index

A change makes a new index, adds keys of a record to indexes, removes them, or switches an index to
failing. `StoredIndex.Invariant admits P` says that a property `P` of one index is kept up by each
of these, for records whose fields have `admits`. From there `Invariant.change` takes it to all
indexes through any change of a store, and `Invariant.reachable` to every reachable store. Both
include inserts that fail halfway, since `putEach_keeps` does not care whether a key is refused. The
order of keys, the agreement of an index with its definition, and others are such properties.

The last section is about indexes outside of a store, written to directly (`IndexWrite`). A run of a
chain may be over such indexes.

The theorems:

* `StoredIndex.Invariant.change`: a change keeps an invariant up for all indexes.
* `StoredIndex.Invariant.reachable`: it holds of the indexes of a reachable store.
* `StoredIndex.sortedIn_ofWrites`, `StoredIndex.ordered_ofWrites`: an index that was only written to
  directly has its keys in order.
-/

set_option autoImplicit false

namespace RecordQuery

namespace Store

/-- `recordsUnder` a class, which a new index is filled from, are live. -/
theorem live_of_mem_recordsUnder {store : Store} {className : String} {r : Record}
    (hr : r ∈ store.recordsUnder className) : store.Live r := by
  obtain ⟨c, hc, hr⟩ := List.mem_flatMap.mp hr
  exact ⟨c, List.mem_of_mem_filter hc, hr⟩

/-- A record that `load` gives is live. -/
theorem live_of_load {store : Store} {rid : Rid} {r : Record} (hload : store.load rid = some r) :
    store.Live r := by
  obtain ⟨c, hcluster, hfind⟩ := Option.bind_eq_some_iff.mp hload
  exact ⟨c, List.mem_of_find?_eq_some hcluster, List.mem_of_find?_eq_some hfind⟩

/-- `newRecord` takes over the fields. -/
theorem fields_of_newRecord {store : Store} {className : String} {fields : Fields}
    {record : Record} (hrecord : store.newRecord className fields = .ok record) :
    record.fields = fields := by
  obtain ⟨c, -, -, hplace⟩ := newRecord_ok hrecord
  rw [hplace]

end Store

namespace StoredIndex

/-- `P` lasts when keys of records with `admits` come and go. `put` speaks of one key at a time and
of a step that is not refused, so a proof of an invariant never sees a list of keys or a failure. -/
structure Invariant (admits : Fields → Prop) (P : StoredIndex → Prop) : Prop where
  /-- It holds without entries. -/
  empty : ∀ name kind definition, P (.empty name kind definition)
  /-- Adding a key keeps it up. -/
  put : ∀ {index next key record}, admits record.fields → KeyOf index.definition record key →
    P index → index.put key record.rid = .ok next → P next
  /-- Removing a key keeps it up. -/
  remove : ∀ {index key record}, admits record.fields → KeyOf index.definition record key →
    P index → P (index.remove key record.rid)
  /-- Switching keeps it up. -/
  switch : ∀ {index} failing, P index → P { index with failing }

section

variable {admits : Fields → Prop} {P : StoredIndex → Prop} (h : Invariant admits P)

include h

/-- Adding keys of a record keeps `P` up, whether one of them is refused or not. -/
theorem Invariant.putEach {record : Record} (hrecord : admits record.fields) {index : StoredIndex}
    {keys : List Key} (hkeys : ∀ key ∈ keys, KeyOf index.definition record key) (hindex : P index) :
    P (index.putEach record.rid keys).2 := by
  refine (putEach_keeps (P := fun i => i.definition = index.definition ∧ P i) ?_ ⟨rfl, hindex⟩).2
  rintro key hkey i next ⟨hsame, hi⟩ hput
  refine ⟨by rw [put_ok hput]; exact hsame, h.put hrecord ?_ hi hput⟩
  rw [hsame]
  exact hkeys key hkey

/-- Adding all keys that a record contributes keeps `P` up, if none is refused. -/
theorem Invariant.putAll {record : Record} (hrecord : admits record.fields)
    {index after : StoredIndex} (hindex : P index)
    (hok : index.putAll (index.keysFor record) record.rid = .ok after) : P after := by
  rw [putAll_eq_putEach] at hok
  obtain ⟨-, -, rfl⟩ := Steps.map_ok hok
  exact h.putEach hrecord (fun _ => keyOf_of_mem_keysFor) hindex

/-- Removing keys of a record keeps `P` up. -/
theorem Invariant.removeAll {record : Record} (hrecord : admits record.fields)
    {index : StoredIndex} {keys : List Key}
    (hkeys : ∀ key ∈ keys, KeyOf index.definition record key) (hindex : P index) :
    P (keys.foldl (fun index key => index.remove key record.rid) index) := by
  induction keys generalizing index with
  | nil => exact hindex
  | cons key keys ih =>
      obtain ⟨hkey, hrest⟩ := List.forall_mem_cons.mp hkeys
      exact @ih (index.remove key record.rid) hrest (h.remove hrecord hkey hindex)

end

open Store

section

variable {admits : Fields → Prop} {P : StoredIndex → Prop} (h : Invariant admits P)
  {store : Store} (hlive : ∀ r, store.Live r → admits r.fields)
  (hindexes : ∀ index ∈ store.indexes, P index)

include h hlive hindexes

/-- A change keeps `P` up for all indexes, the cases being those of `Store.change_cases`. `hlive` is
for the records that a new index is filled from and for the one that is deleted: their fields were
admitted when they were inserted. -/
theorem Invariant.change {change : Store.Change} (hadmitted : change.Admitted admits) :
    ∀ index ∈ (store.change change).indexes, P index := by
  apply change_cases (P := fun after => ∀ index ∈ after.indexes, P index) hindexes
  case hcreateClass =>
    rintro _ _ _ _ _ - hok
    obtain ⟨grown, ids, count, -, -, -, -, -, rfl⟩ := createClass_ok hok
    exact hindexes
  case hlinkProperty =>
    rintro _ _ _ _ - hok
    obtain rfl := linkProperty_ok hok
    exact hindexes
  case hcreateIndex =>
    rintro _ _ _ _ - hok
    obtain ⟨filled, -, hfill, rfl⟩ := createIndex_ok hok
    intro index hindex
    rcases List.mem_append.mp hindex with hindex | hindex
    · exact hindexes index hindex
    · -- the new index is filled from live records, whose fields are admitted
      rw [List.mem_singleton.mp hindex]
      exact Steps.foldlM_keeps (fun r hr _ _ hi hput =>
        h.putAll (hlive r (live_of_mem_recordsUnder hr)) hi hput) (h.empty _ _ _) hfill
  case hinsert =>
    rintro _ _ _ _ rfl hok
    obtain ⟨record, indexes, hrecord, -, hkeys, rfl⟩ := insert_ok hok
    intro changed hchanged
    obtain ⟨index, hindex, hput⟩ := Steps.exists_of_mapM_ok hkeys hchanged
    split at hput
    · exact h.putAll (fields_of_newRecord hrecord ▸ hadmitted) (hindexes index hindex) hput
    · rw [← Except.ok.inj hput]
      exact hindexes index hindex
  case hinsertFails =>
    rintro className fields _ rfl -
    obtain ⟨indexes, heq, hchanged⟩ := store.leftBehind_spec className fields
    rw [heq]
    -- an index that the insert has reached has got keys of the record, if not all of them
    intro changed hmem
    rcases hchanged changed hmem with hindex | ⟨record, hrecord, index, hindex, rfl⟩
    · exact hindexes changed hindex
    · exact h.putEach (fields_of_newRecord hrecord ▸ hadmitted) (fun _ => keyOf_of_mem_keysFor)
        (hindexes index hindex)
  case hdelete =>
    rintro rid -
    rcases delete_eq store rid with ⟨-, hdelete⟩ | ⟨record, hload, hdelete⟩
    · rw [hdelete]
      exact hindexes
    · rw [hdelete]
      intro changed hchanged
      obtain ⟨index, hindex, rfl⟩ := List.mem_map.mp hchanged
      split
      · exact h.removeAll (hlive record (live_of_load hload)) (fun _ => keyOf_of_mem_keysFor)
          (hindexes index hindex)
      · exact hindexes index hindex
  case hfailIndex =>
    rintro name failing -
    intro changed hchanged
    obtain ⟨index, hindex, rfl⟩ := List.mem_map.mp hchanged
    split
    · exact h.switch failing (hindexes index hindex)
    · exact hindexes index hindex
  case hfailCluster => exact fun _ => hindexes

end

/-- `P` holds of all indexes of a reachable store. -/
theorem Invariant.reachable {admits : Fields → Prop} {P : StoredIndex → Prop}
    (h : Invariant admits P) {store : Store} (hreach : Reachable admits store) :
    ∀ index ∈ store.indexes, P index := by
  refine hreach.change_induction (P := fun store => ∀ index ∈ store.indexes, P index) ?_ ?_
  · simp [Store.empty]
  · intro store change hbefore hadmitted hindexes
    exact h.change (fun r hr => hbefore.admits_of_live hr) hindexes hadmitted

/-! ## Direct writes -/

end StoredIndex

/-- The key that the write names has the property `p`. -/
def IndexWrite.KeyIn (p : Key → Prop) : IndexWrite → Prop
  | put key _ | remove key _ => p key
  | clear => True

namespace StoredIndex

/-- `StoredIndex.write` keeps the keys of an index sorted, where the order is total on them
(`htotal`). A key that is refused changes nothing. -/
theorem sortedIn_write {p : Key → Prop} (htotal : TotalOn Key.compare p) {index : StoredIndex}
    (h : index.buckets.SortedIn p) {write : IndexWrite} (hwrite : write.KeyIn p) :
    (index.write write).buckets.SortedIn p := by
  cases write with
  | put key rid =>
      rw [StoredIndex.write]
      cases hput : index.put key rid with
      | error failure => exact h
      | ok next =>
          obtain rfl := put_ok hput
          exact h.insert htotal hwrite rid
  | remove key rid => exact h.erase htotal hwrite rid
  | clear => exact Buckets.sortedIn_empty _

/-- Whatever keys the `writes` put into an index, they stand in order, where the order is total on
them. -/
theorem sortedIn_ofWrites {p : Key → Prop} (htotal : TotalOn Key.compare p)
    {writes : List IndexWrite} (hwrites : ∀ write ∈ writes, write.KeyIn p) (name : String)
    (kind : IndexKind) (definition : IndexDefinition) :
    (writes.foldl StoredIndex.write (.empty name kind definition)).buckets.SortedIn p := by
  exact List.foldlRecOn (motive := fun index : StoredIndex => index.buckets.SortedIn p) writes
    StoredIndex.write (Buckets.sortedIn_empty p)
    fun _ h write hwrite => sortedIn_write htotal h (hwrites write hwrite)

/-- Whatever exact keys the `writes` put into an index, it is `Ordered`: its keys are exact and in
order. -/
theorem ordered_ofWrites {writes : List IndexWrite}
    (hwrites : ∀ write ∈ writes, write.KeyIn fun key => key.isExact = true) (name : String)
    (kind : IndexKind) (definition : IndexDefinition) :
    (writes.foldl StoredIndex.write (.empty name kind definition)).buckets.Ordered :=
  (sortedIn_ofWrites Key.totalOn_exact hwrites name kind definition).ordered

end StoredIndex

end RecordQuery
