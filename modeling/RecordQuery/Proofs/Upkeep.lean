import RecordQuery.Proofs.Mirror

/-!
# `RecordQuery.Proofs.Upkeep`: what any sequence of changes keeps up

Changes follow each other in any order, and each of them succeeds or fails. Beside the mirror of the
records, two things last through all of them: a unique index has one record per key, and an identity
that was handed out is never handed out again.

What holds of each index separately is an `Invariant`, in the sense of `Reachable`: the empty index
has it, and putting and removing keys keep it. `StoredIndex.Unique` is one, together with the order
of keys, which is needed to find a key that would collide. Identities are a matter of the clusters:
`Store.Taken` says that a cluster is past a position, and no change takes it back, a delete
included.

The fields that are inserted have no floating-point numbers. With them the order of keys may
contradict itself, and an insert may fail after it has begun to write; `FailedChanges` is about
that. An index may be declared late, when there are records already: it is filled with their keys,
or refused if they collide.

The theorems:

* `StoredIndex.conflicts_iff`: when an index refuses a key.
* `Store.Reachable.unique`: a unique index of a reachable store has one record per key.
* `Store.insert_error`: an insert is refused before it begins to write.
* `Store.Reachable.handedOut_fresh`: no identity is handed out twice.
* `Store.upkeep_ofChanges`: all of it, after any changes.
-/

set_option autoImplicit false

namespace RecordQuery

/-! ## Unique indexes

A put looks for another record under an equal key before it writes, so the entries of a unique index
stay unique, one write after the other. -/

namespace StoredIndex

/-- An index of a unique kind has at most one record under a key that is not `isNull`. Null keys are
not checked. -/
def Unique (index : StoredIndex) : Prop :=
  index.kind.isUnique = true → ∀ key r s, Key.isNull key = false →
    index.buckets.Holds key r → index.buckets.Holds key s → r = s

/-- An index refuses a key that it is to have once and holds for another record. The key is looked
up, so the keys have to be `Ordered`. -/
theorem conflicts_iff {index : StoredIndex} (hordered : index.buckets.Ordered) {key : Key}
    (hkey : key.isExact = true) {rid : Rid} :
    index.conflicts key rid = true ↔ index.kind.isUnique = true ∧ key.isNull = false ∧
      ∃ other, index.buckets.Holds key other ∧ other ≠ rid := by
  rw [conflicts_iff_finds Key.totalOn_exact hordered.sortedIn hkey]
  simp only [hordered.finds_iff hkey]

/-- `put` leaves one record per key where there was one, as it fails on an equal key with another
record. -/
theorem Unique.put {index after : StoredIndex} (h : index.Unique)
    (hordered : index.buckets.Ordered) {key : Key} (hkey : key.isExact = true) {rid : Rid}
    (hok : index.put key rid = .ok after) : after.Unique := by
  have hfree : ¬index.conflicts key rid = true := by
    intro hconflicts
    simp [StoredIndex.put, hconflicts] at hok
  rw [conflicts_iff hordered hkey] at hfree
  obtain rfl := put_ok hok
  intro hunique other r s hother hr hs
  -- an entry that is new is alone, because the key was not refused
  have halone : ∀ t, index.buckets.Holds key t → key.isNull = false → t = rid := by
    intro t ht hnull
    by_contra hne
    exact hfree ⟨hunique, hnull, t, ht, hne⟩
  rw [withBuckets, hordered.holds_insert hkey] at hr hs
  rcases hr with hr | ⟨rfl, rfl⟩
  · rcases hs with hs | ⟨rfl, rfl⟩
    · exact h hunique other r s hother hr hs
    · exact halone r hr hother
  · rcases hs with hs | ⟨-, rfl⟩
    · exact (halone s hs hother).symm
    · rfl

/-- Exact keys that come and go stay in order, with one record per key where there was one. This is
the `Invariant` for all changes of a store. -/
theorem invariant_unique {admits : Fields → Prop}
    (hadmits : ∀ fields, admits fields → Value.entriesExact fields = true) :
    Invariant admits fun index => index.Unique ∧ index.buckets.Ordered where
  empty _ _ _ := by
    refine ⟨fun _ key r _ _ hr => ?_, Buckets.ordered_empty⟩
    exact absurd hr (Buckets.not_holds_empty key r)
  put {index next key record} hfields hkey hindex hput := by
    have hexact := hkey.isExact (hadmits _ hfields)
    refine ⟨hindex.1.put hindex.2 hexact hput, ?_⟩
    rw [put_ok hput]
    exact hindex.2.insert hexact record.rid
  remove {index key record} hfields hkey hindex := by
    have hexact := hkey.isExact (hadmits _ hfields)
    refine ⟨fun hunique other r s hother hr hs => ?_, hindex.2.erase hexact record.rid⟩
    -- an entry that is left was there before
    exact hindex.1 hunique other r s hother ((hindex.2.holds_erase hexact).mp hr).1
      ((hindex.2.holds_erase hexact).mp hs).1
  switch _ hindex := hindex

end StoredIndex

namespace Store

open StoredIndex

/-- Where only exact fields are inserted (`hadmits`), a unique index of a `Reachable` store has one
record per key. -/
theorem Reachable.unique {admits : Fields → Prop} {store : Store}
    (hadmits : ∀ fields, admits fields → Value.entriesExact fields = true)
    (h : Reachable admits store) : ∀ index ∈ store.indexes, index.Unique :=
  fun index hindex => ((invariant_unique hadmits).reachable h index hindex).1

/-! ## Refused inserts

All conflicts are looked for before the first entry is written. Among exact keys nothing else can
refuse an entry, so an insert that fails has written nothing. -/

/-- An insert is refused before the first entry is written: there is no place for the record,
`newRecord` fails, or one of its keys collides. -/
theorem insert_error {store : Store} (hordered : ∀ index ∈ store.indexes, index.buckets.Ordered)
    {className : String} {fields : Fields} (hfields : Value.entriesExact fields = true)
    {failure : Failure} (herror : store.insert className fields = .error failure) :
    store.newRecord className fields = .error failure ∨
      ∃ record, store.newRecord className fields = .ok record ∧ failure = .invalid .duplicateKey ∧
        ∃ index ∈ store.indexesOf className, ∃ key ∈ index.keysFor record,
          index.conflicts key record.rid = true := by
  cases hrecord : store.newRecord className fields with
  | error refusal =>
      rw [insert_eq, hrecord] at herror
      cases herror
      exact .inl rfl
  | ok record =>
      cases hcollides : store.collides className record with
      | true =>
          rw [insert_eq, hrecord] at herror
          dsimp only at herror
          rw [hcollides] at herror
          cases herror
          obtain ⟨index, hindex, hany⟩ := List.any_eq_true.mp hcollides
          obtain ⟨key, hkey, hconflicts⟩ := List.any_eq_true.mp hany
          exact .inr ⟨record, rfl, rfl, index, hindex, key, hkey, hconflicts⟩
      -- no key collides, so the entries can all be written
      | false =>
          obtain ⟨after, hok⟩ := insert_of_exact hordered hfields hrecord hcollides
          rw [hok] at herror
          cases herror

/-! ## Identities

A position in a cluster is never used twice: the cluster counts on, and a delete does not turn it
back. -/

/-- The identity is that of a record, or was: its cluster is past its position, `nextPosition`. -/
def Taken (store : Store) (rid : Rid) : Prop :=
  ∃ c ∈ store.clusters, c.id = rid.cluster ∧ rid.position < c.nextPosition

/-- A position that a cluster is past stays behind when `change` moves the cluster on, `hnext`. -/
theorem Taken.updateCluster {store after : Store} {rid : Rid} (h : store.Taken rid)
    {id : ClusterId} (change : Cluster → Cluster) (hid : ∀ c, (change c).id = c.id)
    (hnext : ∀ c, c.nextPosition ≤ (change c).nextPosition)
    (hafter : after.clusters = store.updateCluster id change) : after.Taken rid := by
  obtain ⟨c, hc, hcluster, hposition⟩ := h
  refine ⟨if c.id = id then change c else c, ?_, ?_, ?_⟩
  · rw [hafter]
    exact mem_updateCluster.mpr ⟨c, hc, rfl⟩
  · split
    · exact (hid c).trans hcluster
    · exact hcluster
  · split
    · exact Nat.lt_of_lt_of_le hposition (hnext c)
    · exact hposition

/-- An identity that is `Taken` stays so, whatever changes. The cases are the changes; a failed one
leaves the clusters as they were. -/
theorem Taken.change {store : Store} {rid : Rid} (h : store.Taken rid) (change : Change) :
    (store.change change).Taken rid := by
  apply change_cases (P := fun after => after.Taken rid) h
  case hcreateClass =>
    rintro _ _ _ _ _ - hok
    obtain ⟨grown, ids, count, -, -, -, -, -, rfl⟩ := createClass_ok hok
    obtain ⟨c, hc, hplace⟩ := h
    exact ⟨c, List.mem_append_left _ hc, hplace⟩
  case hlinkProperty =>
    rintro _ _ _ _ - hok
    obtain rfl := linkProperty_ok hok
    exact h
  case hcreateIndex =>
    rintro _ _ _ _ - hok
    obtain ⟨index, -, -, rfl⟩ := createIndex_ok hok
    exact h
  -- an insert moves the next position on, and a delete does not move it back
  case hinsert =>
    rintro _ _ _ _ - hok
    obtain ⟨record, indexes, -, -, -, rfl⟩ := insert_ok hok
    refine h.updateCluster (fun c =>
      { c with records := c.records ++ [record], nextPosition := c.nextPosition + 1 })
      (fun _ => rfl) (fun c => Nat.le_succ c.nextPosition) rfl
  case hinsertFails =>
    rintro className fields _ - -
    obtain ⟨indexes, heq, -⟩ := store.leftBehind_spec className fields
    rw [heq]
    exact h
  case hdelete =>
    rintro other -
    rcases delete_eq store other with ⟨-, hdelete⟩ | ⟨record, -, hdelete⟩
    · rw [hdelete]
      exact h
    · rw [hdelete]
      exact h.updateCluster (fun c =>
        { c with records := c.records.filter fun r => r.rid != other })
        (fun _ => rfl) (fun _ => Nat.le_refl _) rfl
  case hfailIndex => exact fun _ => h
  case hfailCluster => exact fun _ => h

/-- The identity of a new record was free, and is taken from then on. Its position is the
`nextPosition` of its cluster. -/
theorem Sound.taken_insert {store after : Store} (h : store.Sound) {className : String}
    {fields : Fields} {rid : Rid} (hok : store.insert className fields = .ok (rid, after)) :
    ¬store.Taken rid ∧ after.Taken rid := by
  obtain ⟨record, indexes, hrecord, rfl, -, rfl⟩ := insert_ok hok
  obtain ⟨d, hd, -, hplace⟩ := newRecord_ok hrecord
  obtain ⟨hmem, hid⟩ := h.cluster?_eq_some_iff.mp hd
  have hposition : record.rid.position = d.nextPosition := by rw [hplace]
  constructor
  · rintro ⟨c, hc, hcluster, hbehind⟩
    obtain rfl := h.cluster_eq hc hmem (hcluster.trans hid.symm)
    omega
  · refine ⟨_, mem_updateCluster.mpr ⟨d, hmem, rfl⟩, ?_⟩
    rw [if_pos hid]
    exact ⟨hid, by show record.rid.position < d.nextPosition + 1; omega⟩

/-- The identity that a change hands out: that of the record which `insert` makes. -/
def handedOut? (store : Store) : Change → Option Rid
  | .insert className fields => ((store.insert className fields).map (·.1)).toOption
  | _ => none

/-- The identities that some changes hand out, in order, as `handedOut?` gives them. A change that
fails hands out none. -/
def handedOut (store : Store) : List Change → List Rid
  | [] => []
  | change :: changes => (store.handedOut? change).toList ++ (store.change change).handedOut changes

/-- An identity that a change hands out was not `Taken`, and is from then on. -/
theorem Sound.taken_handedOut? {store : Store} (h : store.Sound) {change : Change} {rid : Rid}
    (hrid : store.handedOut? change = some rid) :
    ¬store.Taken rid ∧ (store.change change).Taken rid := by
  cases change with
  | insert className fields =>
      rw [change_insert]
      rw [handedOut?] at hrid
      cases hinsert : store.insert className fields with
      | error failure =>
          rw [hinsert] at hrid
          cases hrid
      | ok inserted =>
          rw [hinsert] at hrid
          cases hrid
          exact h.taken_insert hinsert
  | _ => cases hrid

/-- No change hands out an identity that is `Taken`, and none is handed out twice. The induction is
on the changes. -/
theorem Reachable.handedOut_fresh {admits : Fields → Prop} {store : Store}
    (h : Reachable admits store) {changes : List Change}
    (hadmitted : ∀ change ∈ changes, change.Admitted admits) :
    (store.handedOut changes).Nodup ∧ ∀ rid ∈ store.handedOut changes, ¬store.Taken rid := by
  induction changes generalizing store with
  | nil => exact ⟨List.nodup_nil, by simp [handedOut]⟩
  | cons change changes ih =>
      obtain ⟨hnodup, hfree⟩ := ih (h.change (hadmitted change (List.mem_cons_self ..)))
        (fun c hc => hadmitted c (List.mem_cons_of_mem change hc))
      -- what is free after the change was free before it
      have hbefore : ∀ rid ∈ (store.change change).handedOut changes, ¬store.Taken rid :=
        fun rid hrid htaken => hfree rid hrid (htaken.change change)
      cases hfirst : store.handedOut? change with
      | none =>
          simp only [handedOut, hfirst, Option.toList_none, List.nil_append]
          exact ⟨hnodup, hbefore⟩
      | some first =>
          obtain ⟨hfirstFree, hfirstTaken⟩ := h.sound.taken_handedOut? hfirst
          simp only [handedOut, hfirst, Option.toList_some, List.singleton_append,
            List.nodup_cons, List.mem_cons, forall_eq_or_imp]
          exact ⟨⟨fun hagain => hfree first hagain hfirstTaken, hnodup⟩, hfirstFree, hbefore⟩

/-! ## All of it

The parts are put together for a list of changes, with the stores that failed changes leave behind.
-/

/-- After any changes, failed ones among them, that insert no floating-point number, `hexact`: every
index holds the keys of the live records of its class and no others, a unique one has one record per
key, no identity was handed out twice, and an insert that is refused is so before it writes. -/
theorem upkeep_ofChanges {changes : List Change}
    (hexact : ∀ change ∈ changes,
      change.Admitted fun fields => Value.entriesExact fields = true) :
    (∀ index ∈ (ofChanges changes).indexes,
      (∀ key rid, index.buckets.Holds key rid ↔
        ∃ r, (ofChanges changes).load rid = some r ∧
          (ofChanges changes).schema.isSubclassOf r.className index.definition.className = true ∧
          key ∈ index.keysFor r) ∧
      (index.kind.isUnique = true → ∀ key r s, Key.isNull key = false →
        index.buckets.Holds key r → index.buckets.Holds key s → r = s)) ∧
    (Store.empty.handedOut changes).Nodup ∧
    ∀ className fields failure, Value.entriesExact fields = true →
      (ofChanges changes).insert className fields = .error failure →
      (ofChanges changes).newRecord className fields = .error failure ∨
        ∃ record, (ofChanges changes).newRecord className fields = .ok record ∧
          failure = .invalid .duplicateKey ∧
          ∃ index ∈ (ofChanges changes).indexesOf className, ∃ key ∈ index.keysFor record,
            index.conflicts key record.rid = true := by
  have hreach := reachable_ofChanges hexact
  -- an index mirrors the live records, and the other parts follow from that
  have hmirrors := hreach.mirrors fun _ hfields => hfields
  refine ⟨fun index hindex => ⟨fun key rid => ?_, ?_⟩, ?_, ?_⟩
  · rw [(hmirrors index hindex).holds_iff]
    refine exists_congr fun r => ?_
    rw [hreach.sound.load_eq_some_iff, hreach.sound.forest.isSubclassOf_iff, and_assoc]
  · exact hreach.unique (fun _ hfields => hfields) index hindex
  · exact (Reachable.empty.handedOut_fresh hexact).1
  · intro className fields failure hfields herror
    exact insert_error (fun index hindex => (hmirrors index hindex).ordered) hfields herror

/-- A unique index that is declared late, over lists and nulls; then an insert that it refuses, a
delete, and an insert of the key that has become free. -/
def lateIndexChanges : List Change := [
  .createClass "A" none 1 false,
  .createClass "B" (some "A") 1 false,
  .insert "A" [("x", .list [.int 1, .int 2])],
  .insert "A" [],
  .insert "B" [],
  .createIndex "A.x" .unique ⟨"A", ["x"], false, .keys⟩,
  .insert "B" [("x", .int 2)],
  .delete ⟨1, 0⟩,
  .insert "B" [("x", .int 2)],
  .insert "A" [("x", .int 1)]]

/-- The changes hand out five identities, and the second insert of 2 succeeds. -/
example : Store.empty.handedOut lateIndexChanges = [⟨1, 0⟩, ⟨1, 1⟩, ⟨2, 0⟩, ⟨2, 1⟩, ⟨1, 2⟩] := by
  decide +kernel

/-- The changes insert no floating-point number, so they leave the index with one record under
each key but null, and the identities they hand out are different ones. The store has that one index,
and under `2` the index holds the record that was inserted after the delete. -/
theorem upkeep_lateIndex :
    (∀ change ∈ lateIndexChanges,
      change.Admitted fun fields => Value.entriesExact fields = true) ∧
    (∃ index, (ofChanges lateIndexChanges).indexes = [index] ∧ index.name = "A.x" ∧
      index.buckets.Holds [.int 2] ⟨2, 1⟩) ∧
    (∀ index ∈ (ofChanges lateIndexChanges).indexes, ∀ r s,
      index.buckets.Holds [.int 2] r → index.buckets.Holds [.int 2] s → r = s) ∧
    (Store.empty.handedOut lateIndexChanges).Nodup := by
  have hexact : ∀ change ∈ lateIndexChanges,
      change.Admitted fun fields => Value.entriesExact fields = true := by
    simp only [lateIndexChanges, List.mem_cons, List.not_mem_nil, or_false]
    rintro change (rfl | rfl | rfl | rfl | rfl | rfl | rfl | rfl | rfl | rfl) <;> trivial
  obtain ⟨hindexes, hnodup, -⟩ := upkeep_ofChanges hexact
  obtain ⟨index, hone⟩ : ∃ index, (ofChanges lateIndexChanges).indexes = [index] :=
    List.length_eq_one_iff.mp (by decide +kernel)
  refine ⟨hexact, ⟨index, hone, ?_, ?_⟩, fun index hindex r s => ?_, hnodup⟩
  · have hname : (ofChanges lateIndexChanges).indexes.map (·.name) = ["A.x"] := by decide +kernel
    rw [hone] at hname
    exact List.singleton_inj.mp hname
  · -- the record is live, and the index holds whatever is
    have hindex : index ∈ (ofChanges lateIndexChanges).indexes := by simp [hone]
    refine ((hindexes index hindex).1 [.int 2] ⟨2, 1⟩).mpr ⟨⟨⟨2, 1⟩, "B", [("x", .int 2)]⟩, rfl, ?_⟩
    have hkeys : (ofChanges lateIndexChanges).indexes.map
        (fun index => (index.definition.className, index.keysFor ⟨⟨2, 1⟩, "B", [("x", .int 2)]⟩)) =
          [("A", [[.int 2]])] := by rfl
    rw [hone] at hkeys
    obtain ⟨hclass, hkeys⟩ := Prod.mk.inj (List.singleton_inj.mp hkeys)
    rw [hclass, hkeys]
    exact ⟨by decide +kernel, List.mem_singleton.mpr rfl⟩
  · refine (hindexes index hindex).2 ?_ [.int 2] r s rfl
    revert index
    decide +kernel

end Store

end RecordQuery
