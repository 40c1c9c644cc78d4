import RecordQuery.Proofs.Steps
import RecordQuery.Store.InPlace

/-!
# `RecordQuery.Proofs.InPlace`: what the writes of a change come to

There are two descriptions of a change. `Store.createClass`, `Store.insert` and the others give the
store afterwards or a failure, and a failure gives no store at all. `Writing.createClass`,
`Writing.insert` and the others are the same changes at work on a store, write by write, and a
failure leaves the writes made before it. This module proves that the two agree, so that what is
proved of the first holds of the second.

A declaration checks everything before its first write, so it is all or nothing
(`Store.allOrNothing`). Filling an index may fail halfway, but the index is not in the store yet. An
insert is different. It looks for collisions in all indexes before it adds a key, and adds the keys
index by index afterwards. If a key is refused then, the keys added before stay. `Store.leftBehind`
is the store with these. `RecordQuery.Proofs.Collisions` shows that it is the store as it was when
the order of keys is total.

The theorems:

* `Writing.run_createClass`, `Writing.run_linkProperty`, `Writing.run_createIndex`: a declaration
  that fails leaves the store as it was.
* `Writing.run_insert`: so does an insert, unless it fails while it adds keys, when it leaves
  `Store.leftBehind`.
* `Store.leftBehind_spec`: this is the store with some keys more, and nothing else changed.
-/

set_option autoImplicit false

namespace RecordQuery

namespace StoredIndex

/-- The index with other `buckets`, so with other entries. -/
def withBuckets (index : StoredIndex) (buckets : Buckets) : StoredIndex := { index with buckets }

/-- `StoredIndex.put` inserts the entry into the buckets, if it gives an index at all. -/
theorem put_ok {index after : StoredIndex} {key : Key} {rid : Rid}
    (hok : index.put key rid = .ok after) :
    after = index.withBuckets (index.buckets.insert key rid) := by
  unfold put at hok
  split at hok
  · simp at hok
  · simpa [withBuckets] using hok.symm

/-- `putAll` and `putEach` add the same keys. `putAll` gives the index with all of them or a
failure, `putEach` gives the outcome together with the index as far as it has come. -/
theorem putAll_eq_putEach (index : StoredIndex) (keys : List Key) (rid : Rid) :
    index.putAll keys rid =
      (index.putEach rid keys).1.map fun _ => (index.putEach rid keys).2 := by
  induction keys generalizing index with
  | nil => rfl
  | cons key keys ih =>
      rw [putAll, List.foldlM_cons, putEach]
      cases hput : index.put key rid with
      | error failure => rfl
      | ok next => exact ih next

/-- The same for all indexes that cover the class of the record: `putKeys` stops at the first index
that refuses a key and keeps what was added before. -/
theorem mapM_putAll_eq_putKeys (ancestors : List String) (record : Record)
    (indexes : List StoredIndex) :
    (indexes.mapM fun index =>
      if ancestors.contains index.definition.className then
        index.putAll (index.keysFor record) record.rid
      else .ok index) =
      (putKeys ancestors record indexes).1.map fun _ => (putKeys ancestors record indexes).2 := by
  induction indexes with
  | nil => rfl
  | cons index rest ih =>
      rw [List.mapM_cons, putKeys, ih]
      split
      · rw [putAll_eq_putEach]
        rcases index.putEach record.rid (index.keysFor record) with ⟨_ | _, written⟩
        · rfl
        · rcases putKeys ancestors record rest with ⟨_ | _, others⟩ <;> rfl
      · rcases putKeys ancestors record rest with ⟨_ | _, others⟩ <;> rfl

/-- What every entry added keeps is kept when keys are added one after the other, whether one of
them is refused or not. `P` is one of the invariants of `RecordQuery.Proofs.IndexInvariants`. -/
theorem putEach_keeps {P : StoredIndex → Prop} {index : StoredIndex} {keys : List Key} {rid : Rid}
    (hstep : ∀ key ∈ keys, ∀ index next, P index → index.put key rid = .ok next → P next)
    (h : P index) : P (index.putEach rid keys).2 := by
  induction keys generalizing index with
  | nil => exact h
  | cons key keys ih =>
      rw [putEach]
      split
      · exact h
      next next hput =>
        exact ih (fun k hk => hstep k (List.mem_cons_of_mem _ hk))
          (hstep key List.mem_cons_self index next h hput)

/-- After `putKeys` every index is as before, or is what `putEach` makes of it with the keys of the
record. The latter may be some of the keys only, where one was refused. -/
theorem mem_putKeys {ancestors : List String} {record : Record} {indexes : List StoredIndex}
    {changed : StoredIndex} (h : changed ∈ (putKeys ancestors record indexes).2) :
    ∃ index ∈ indexes, changed = index ∨
      changed = (index.putEach record.rid (index.keysFor record)).2 := by
  induction indexes with
  | nil => cases h
  | cons index rest ih =>
      -- an index behind the first one has been reached, or it is as before
      have hrest (hmem : changed ∈ (putKeys ancestors record rest).2) :
          ∃ i ∈ index :: rest, changed = i ∨
            changed = (i.putEach record.rid (i.keysFor record)).2 := by
        obtain ⟨i, hi, hchanged⟩ := ih hmem
        exact ⟨i, List.mem_cons_of_mem _ hi, hchanged⟩
      rw [putKeys] at h
      split at h
      · split at h
        next hput =>
          rcases List.mem_cons.mp h with rfl | h
          · exact ⟨index, List.mem_cons_self, .inr (by rw [hput])⟩
          · exact ⟨changed, List.mem_cons_of_mem _ h, .inl rfl⟩
        next hput =>
          rcases List.mem_cons.mp h with rfl | h
          · exact ⟨index, List.mem_cons_self, .inr (by rw [hput])⟩
          · exact hrest h
      · rcases List.mem_cons.mp h with rfl | h
        · exact ⟨changed, List.mem_cons_self, .inl rfl⟩
        · exact hrest h

/-- Where every index that covers the class takes all keys of the record, `putKeys` succeeds. -/
theorem putKeys_ok {ancestors : List String} {record : Record} {indexes : List StoredIndex}
    (h : ∀ index ∈ indexes, ancestors.contains index.definition.className = true →
      (index.putEach record.rid (index.keysFor record)).1 = .ok ()) :
    (putKeys ancestors record indexes).1 = .ok () := by
  induction indexes with
  | nil => rfl
  | cons index rest ih =>
      obtain ⟨hindex, hrest⟩ := List.forall_mem_cons.mp h
      rw [putKeys]
      split
      next hcovers =>
        have hok := hindex hcovers
        split
        next failure written hput =>
          rw [hput] at hok
          cases hok
        · exact ih hrest
      · exact ih hrest

end StoredIndex

namespace Store

/-- `Store.insert` after the record has been made: it fails with `duplicateKey` if the record
collides, and otherwise adds the keys and puts the record into its cluster. -/
theorem insert_eq (store : Store) (className : String) (fields : Fields) :
    store.insert className fields =
      match store.newRecord className fields with
      | .error failure => .error failure
      | .ok record =>
          if store.collides className record then .error (.invalid .duplicateKey)
          else (store.addKeys record).map fun indexes => (record.rid,
            { store with
              indexes
              clusters := store.updateCluster record.rid.cluster fun c =>
                { c with records := c.records ++ [record], nextPosition := c.nextPosition + 1 }
              inserted := store.inserted + 1 }) := by
  unfold insert
  cases store.newRecord className fields with
  | error failure => rfl
  | ok record =>
      show (if store.collides className record = true then _ else _) = _
      dsimp only
      -- a collision is found before anything is written
      by_cases hcollides : store.collides className record = true
      · rw [if_pos hcollides, if_pos hcollides]
        rfl
      · rw [if_neg hcollides, if_neg hcollides]
        cases store.addKeys record <;> rfl

/-- `Store.addKeys` gives the indexes that `putKeys` comes to, if `putKeys` refuses no key. -/
theorem addKeys_eq (store : Store) (record : Record) :
    store.addKeys record =
      (StoredIndex.putKeys (store.schema.ancestors record.className) record store.indexes).1.map
        fun _ =>
          (StoredIndex.putKeys (store.schema.ancestors record.className) record store.indexes).2 :=
  StoredIndex.mapM_putAll_eq_putKeys _ record store.indexes

/-- What an insert that fails leaves behind. It is the store as it was when no record could be made
or the record collides. Otherwise the insert has begun to add keys, and the indexes are those that
`StoredIndex.putKeys` came to. -/
def leftBehind (store : Store) (className : String) (fields : Fields) : Store :=
  match store.newRecord className fields with
  | .error _ => store
  | .ok record =>
      if store.collides className record then store
      else { store with indexes :=
        (StoredIndex.putKeys (store.schema.ancestors record.className) record store.indexes).2 }

/-- `leftBehind` changes the indexes alone, and each of these is one of the store or has got keys of
the new record. The record itself is in no cluster. -/
theorem leftBehind_spec (store : Store) (className : String) (fields : Fields) :
    ∃ indexes, store.leftBehind className fields = { store with indexes } ∧
      ∀ changed ∈ indexes, changed ∈ store.indexes ∨
        ∃ record, store.newRecord className fields = .ok record ∧
          ∃ index ∈ store.indexes,
            changed = (index.putEach record.rid (index.keysFor record)).2 := by
  unfold leftBehind
  split
  · exact ⟨store.indexes, rfl, fun _ => .inl⟩
  next record hrecord =>
    split
    · exact ⟨store.indexes, rfl, fun _ => .inl⟩
    · refine ⟨_, rfl, fun changed hchanged => ?_⟩
      obtain ⟨index, hindex, rfl | rfl⟩ := StoredIndex.mem_putKeys hchanged
      · exact .inl hindex
      · exact .inr ⟨record, hrecord, index, hindex, rfl⟩

/-- What a `Writing` gives if it is all or nothing: the store that the change makes, or the failure
and the store as it was. -/
def allOrNothing (store : Store) : Except Failure Store → Except Failure Unit × Store
  | .ok after => (.ok (), after)
  | .error failure => (.error failure, store)

end Store

namespace Writing

open Store

/-- `addClusters` makes that many clusters of the class, with the next free numbers, and gives their
numbers. -/
theorem run_addClusters (store : Store) (className : String) (count : Nat) :
    (addClusters className count).run.run store =
      (.ok ((List.range count).map (store.nextCluster + ·)), { store with
        clusters := store.clusters ++
          ((List.range count).map (store.nextCluster + ·)).map fun id => ⟨id, className, [], 0⟩
        nextCluster := store.nextCluster + count }) := by
  induction count generalizing store with
  | zero =>
      rw [List.range_zero, List.map_nil, List.map_nil, List.append_nil]
      rfl
  | succ count ih =>
      -- the first cluster gets the next number, the others the numbers behind it
      have hnumbers : (List.range (count + 1)).map (store.nextCluster + ·) =
          store.nextCluster :: (List.range count).map (store.nextCluster + 1 + ·) := by
        rw [List.range_succ_eq_map, List.map_cons, List.map_map]
        refine congrArg (store.nextCluster :: ·) (List.map_congr_left fun i _ => ?_)
        exact Nat.add_right_comm store.nextCluster i 1
      have hfirst : (addCluster className).run.run store = (.ok store.nextCluster, { store with
          clusters := store.clusters ++ [⟨store.nextCluster, className, [], 0⟩]
          nextCluster := store.nextCluster + 1 }) := rfl
      rw [addClusters, Steps.run_bind, hfirst]
      dsimp only
      rw [Steps.run_bind, ih, hnumbers, List.map_cons, Nat.add_right_comm, List.append_assoc]
      rfl

/-- Declaring a class fails before the first write, so in place it is `Store.createClass`, all or
nothing. -/
theorem run_createClass (store : Store) (name : String) (superclass : Option String)
    (clusters : Nat) (isAbstract : Bool) :
    (createClass name superclass clusters isAbstract).run.run store =
      store.allOrNothing (store.createClass name superclass clusters isAbstract) := by
  unfold createClass Store.createClass
  rw [Steps.run_bind, Steps.run_get]
  dsimp only
  split
  · rfl
  · -- only a superclass has to be looked for, and the clusters are added last
    cases superclass with
    | none =>
        rw [Steps.run_bind, show (enterBelow name none).run.run store = (.ok (), store) from rfl]
        dsimp only
        rw [Steps.run_bind, run_addClusters]
        rfl
    | some parent =>
        rw [Steps.run_bind, enterBelow, Steps.run_bind, Steps.run_get]
        dsimp only
        by_cases hparent : store.schema.declares parent = true
        · rw [if_pos hparent, if_pos hparent, Steps.run_set]
          dsimp only
          rw [Steps.run_bind, run_addClusters]
          rfl
        · rw [if_neg hparent, if_neg hparent]
          rfl

/-- `linkProperty` in place fails before the first write, if it fails. -/
theorem run_linkProperty (store : Store) (className property target : String) :
    (linkProperty className property target).run.run store =
      store.allOrNothing (store.linkProperty className property target) := by
  unfold linkProperty Store.linkProperty
  rw [Steps.run_bind, Steps.run_get]
  dsimp only
  split
  · rfl
  · split <;> rfl

/-- `fillIndex` adds the keys of the records to an index that is not in the store yet, so it leaves
the store alone. -/
theorem run_fillIndex (store : Store) (index : StoredIndex) (records : List Record) :
    (fillIndex index records).run.run store =
      (records.foldlM (fun index record => index.putAll (index.keysFor record) record.rid) index,
        store) := by
  induction records generalizing index with
  | nil => rfl
  | cons record records ih =>
      rw [fillIndex, List.foldlM_cons, StoredIndex.putAll_eq_putEach]
      rcases index.putEach record.rid (index.keysFor record) with ⟨_ | _, filled⟩
      · rfl
      · exact ih filled

/-- Declaring an index fails before the store gets it, also where `fillIndex` fails at the second of
two records with one key. -/
theorem run_createIndex (store : Store) (name : String) (kind : IndexKind)
    (definition : IndexDefinition) :
    (createIndex name kind definition).run.run store =
      store.allOrNothing (store.createIndex name kind definition) := by
  unfold createIndex Store.createIndex
  rw [Steps.run_bind, Steps.run_get]
  dsimp only
  split
  · rfl
  · split
    · rfl
    · rw [Steps.run_bind, run_fillIndex]
      cases (store.recordsUnder definition.className).foldlM
        (fun index record => index.putAll (index.keysFor record) record.rid)
        (StoredIndex.empty name kind definition) <;> rfl

/-- `addKeys` in place: the indexes one after the other, up to the first that refuses a key. -/
theorem run_addKeys (store : Store) (record : Record) :
    (addKeys record).run.run store =
      let written :=
        StoredIndex.putKeys (store.schema.ancestors record.className) record store.indexes
      (written.1, { store with indexes := written.2 }) := by
  unfold addKeys
  rw [Steps.run_bind, Steps.run_get]
  dsimp only
  rw [Steps.run_bind, Steps.run_set]
  dsimp only
  cases (StoredIndex.putKeys (store.schema.ancestors record.className) record store.indexes).1 <;>
    rfl

/-- An insert does in place what `Store.insert` does as a whole. Where that fails, the store is
`leftBehind`: the entries added before the failure stay. -/
theorem run_insert (store : Store) (className : String) (fields : Fields) :
    (insert className fields).run.run store =
      match store.insert className fields with
      | .ok (rid, after) => (.ok rid, after)
      | .error failure => (.error failure, store.leftBehind className fields) := by
  unfold insert leftBehind
  rw [Steps.run_bind, Steps.run_get, insert_eq]
  dsimp only
  cases store.newRecord className fields with
  | error failure => rfl
  | ok record =>
      dsimp only
      split
      · rfl
      · rw [Steps.run_bind, run_addKeys, addKeys_eq]
        dsimp only
        -- the keys are all there, or some are and the record is not
        cases (StoredIndex.putKeys (store.schema.ancestors record.className) record
          store.indexes).1 <;> rfl

end Writing

end RecordQuery
