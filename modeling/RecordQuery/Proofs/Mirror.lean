import RecordQuery.Proofs.Collisions

/-!
# `RecordQuery.Proofs.Mirror`: indexes follow the records

`StoredIndex.Mirrors` says that an index and a store agree: the index holds a record under a key
exactly if the record is live, belongs to the class of the index, and contributes the key. This
holds of every index of a reachable store if only exact fields were inserted. With floating-point
numbers it may fail, because an index keeps one key for all that compare equal, and which one
depends on the order of inserts. `StoredIndex.Reflects p` is the statement up to equality of keys,
and it holds wherever the order is total on the keys.

So the changes are proved to keep up `Reflects`, and `Mirrors` follows from it for exact keys. Each
kind of change has one lemma (`reflects_insert`, `reflects_delete` and so on). It is based on what
the change does to the entries of one index (`putAll_finds`, `removeAll_finds`, `fill_finds`) and to
the live records (`Sound.live_insert`, `Sound.live_delete`).

An insert that fails is no case of its own. The order is total, so it has written nothing
(`RecordQuery.Proofs.Collisions`).

The theorems:

* `StoredIndex.putAll_finds`, `StoredIndex.removeAll_finds`, `StoredIndex.fill_finds`: which records
  an index has after a change.
* `StoredIndex.Reflects.exists_holds_iff`: an index that reflects the store holds the keys of the
  live records, up to equality.
* `Store.Reachable.reflects`: where the order of keys is total, every index of a reachable store
  reflects it.
* `Store.Reachable.mirrors`: where only exact fields are inserted, every index of a reachable store
  mirrors it.
-/

set_option autoImplicit false

namespace RecordQuery

/-- All keys that the record may contribute, to whichever index, have the property `p`. -/
def Record.KeysIn (p : Key → Prop) (record : Record) : Prop :=
  ∀ definition key, StoredIndex.KeyOf definition record key → p key

namespace StoredIndex

/-! ## Changes of the entries

A record brings several keys, and an index that is declared late several records. Here the
statements about one put and one erasure are carried over to lists of keys, and to lists of records.
-/

section

variable {p : Key → Prop} (htotal : TotalOn Key.compare p)

include htotal

/-- `putAll` adds the record under the keys that equal one of `keys`, and nothing else. The rest of
the index stays as it is. -/
theorem putAll_finds {index after : StoredIndex} {keys : List Key} {rid : Rid}
    (hsorted : index.buckets.SortedIn p) (hkeys : ∀ key ∈ keys, p key)
    (hok : index.putAll keys rid = .ok after) :
    ∃ buckets : Buckets, after = index.withBuckets buckets ∧ buckets.SortedIn p ∧
      ∀ key other, p key → (buckets.Finds key other ↔
        index.buckets.Finds key other ∨ ((∃ k ∈ keys, key.compare k = .eq) ∧ other = rid)) := by
  -- on the keys, each of which is added to what the ones before it left
  induction keys generalizing index with
  | nil =>
      simp only [putAll, List.foldlM_nil, pure, Except.pure, Except.ok.injEq] at hok
      subst hok
      exact ⟨index.buckets, rfl, hsorted, by simp⟩
  | cons k keys ih =>
      simp only [putAll, List.foldlM_cons, Steps.bind_eq_ok] at hok
      obtain ⟨next, hput, hrest⟩ := hok
      obtain rfl := put_ok hput
      obtain ⟨hk, hkeys⟩ := List.forall_mem_cons.mp hkeys
      obtain ⟨buckets, rfl, hbuckets, hfinds⟩ := ih (hsorted.insert htotal hk rid) hkeys hrest
      refine ⟨buckets, rfl, hbuckets, fun key other hkey => ?_⟩
      rw [hfinds key other hkey, withBuckets, hsorted.finds_insert htotal hk hkey]
      simp only [List.exists_mem_cons_iff, or_and_right, or_assoc]

/-- Removing `keys` one after the other removes the record from under the keys that equal one of
them, and nothing else. -/
theorem removeAll_finds {index : StoredIndex} {keys : List Key} {rid : Rid}
    (hsorted : index.buckets.SortedIn p) (hkeys : ∀ key ∈ keys, p key) :
    ∃ buckets : Buckets,
      keys.foldl (fun index key => index.remove key rid) index = index.withBuckets buckets ∧
      buckets.SortedIn p ∧ ∀ key other, p key → (buckets.Finds key other ↔
        index.buckets.Finds key other ∧
          ¬((∃ k ∈ keys, key.compare k = .eq) ∧ other = rid)) := by
  induction keys generalizing index with
  | nil => exact ⟨index.buckets, rfl, hsorted, by simp⟩
  | cons k keys ih =>
      obtain ⟨hk, hkeys⟩ := List.forall_mem_cons.mp hkeys
      obtain ⟨buckets, heq, hbuckets, hfinds⟩ :=
        @ih (index.remove k rid) (hsorted.erase htotal hk rid) hkeys
      refine ⟨buckets, heq, hbuckets, fun key other hkey => ?_⟩
      rw [hfinds key other hkey, remove, hsorted.finds_erase htotal hk hkey]
      simp only [List.exists_mem_cons_iff, or_and_right, not_or, and_assoc]

/-- Filling an index from `records` gives it each of them under the keys that equal one of its own,
and nothing else. -/
theorem fill_finds {index after : StoredIndex} {records : List Record}
    (hsorted : index.buckets.SortedIn p) (hrecords : ∀ r ∈ records, r.KeysIn p)
    (hok : records.foldlM
      (fun index record => index.putAll (index.keysFor record) record.rid) index = .ok after) :
    ∃ buckets : Buckets, after = index.withBuckets buckets ∧ buckets.SortedIn p ∧
      ∀ key rid, p key → (buckets.Finds key rid ↔ index.buckets.Finds key rid ∨
        ∃ r ∈ records, r.rid = rid ∧ ∃ k ∈ index.keysFor r, key.compare k = .eq) := by
  induction records generalizing index with
  | nil =>
      simp only [List.foldlM_nil, pure, Except.pure, Except.ok.injEq] at hok
      subst hok
      exact ⟨index.buckets, rfl, hsorted, by simp⟩
  | cons r records ih =>
      simp only [List.foldlM_cons, Steps.bind_eq_ok] at hok
      obtain ⟨next, hput, hrest⟩ := hok
      obtain ⟨hr, hrecords⟩ := List.forall_mem_cons.mp hrecords
      -- the record is added under its own keys, all of which have the property
      obtain ⟨added, rfl, hadded, hfindsAdded⟩ := putAll_finds htotal hsorted
        (fun key hkey => hr _ key (keyOf_of_mem_keysFor hkey)) hput
      obtain ⟨buckets, rfl, hbuckets, hfinds⟩ :=
        @ih (index.withBuckets added) hadded hrecords hrest
      refine ⟨buckets, rfl, hbuckets, fun key rid hkey => ?_⟩
      rw [hfinds key rid hkey, withBuckets, hfindsAdded key rid hkey, or_assoc,
        List.exists_mem_cons_iff, and_comm (b := rid = r.rid), eq_comm (a := rid)]
      rfl

end

/-! ## The mirror

One lemma for each change, always in the form that an index which is in step before it is in step
after it. `reflects_congr` is for the changes that the entries need not follow. -/

/-- The index finds a record under a key exactly if the record is live, belongs to the class of the
index or to a class below it, and contributes a key that equals it. `p` is a property of keys on
which the order is total. -/
structure Reflects (p : Key → Prop) (index : StoredIndex) (store : Store) : Prop where
  /-- The keys are in order. -/
  sorted : index.buckets.SortedIn p
  /-- The entries are those of the live records. -/
  finds_iff : ∀ {key : Key} {rid : Rid}, p key → (index.buckets.Finds key rid ↔
    ∃ r, store.Live r ∧ r.rid = rid ∧
      store.schema.Below r.className index.definition.className ∧
      ∃ k ∈ index.keysFor r, key.compare k = .eq)

/-- The index `Holds` a record under a key exactly if the record is live, belongs to the class of
the index or to a class below it, and contributes that key. -/
structure Mirrors (index : StoredIndex) (store : Store) : Prop where
  /-- The keys are in order. -/
  ordered : index.buckets.Ordered
  /-- The entries are those of the live records. -/
  holds_iff : ∀ {key : Key} {rid : Rid}, index.buckets.Holds key rid ↔
    ∃ r, store.Live r ∧ r.rid = rid ∧
      store.schema.Below r.className index.definition.className ∧ key ∈ index.keysFor r

/-- An index that mirrors a store with exact records reflects it: for exact keys `Finds` is
`Holds`. -/
theorem Mirrors.reflects {index : StoredIndex} {store : Store} (h : index.Mirrors store)
    (hexact : ∀ r, store.Live r → r.isExact = true) :
    index.Reflects (fun key => Value.ItemsIn (fun _ => True) (fun _ => False) key) store where
  sorted := h.ordered.sortedIn_numbers _
  finds_iff {key rid} hkey := by
    replace hkey : key.isExact = true := Value.areExact_of_itemsIn hkey
    rw [h.ordered.finds_iff hkey, h.holds_iff]
    refine exists_congr fun r => and_congr_right fun hr => and_congr_right fun _ =>
      and_congr_right fun _ => ⟨fun hown => ⟨key, hown, Key.compare_self key⟩, ?_⟩
    rintro ⟨own, hown, heq⟩
    have hownExact := (keyOf_of_mem_keysFor hown).isExact (hexact r hr)
    rwa [(Key.compare_eq_iff hkey hownExact).mp heq]

/-- What an index that leaves no nulls out (`hnulls`) holds a live record under are the keys of the
record, up to equality. A property `holds` that equal keys share (`hcongr`) is one of such an entry
exactly if it is one of a key of the record. This is how a lookup, which sees entries, is compared
with a condition, which sees fields. -/
theorem Reflects.exists_holds_iff {p : Key → Prop} {index : StoredIndex} {store : Store}
    (h : index.Reflects p store) (hsound : store.Sound)
    (hnulls : index.definition.ignoreNulls = false) {r : Record} (hr : store.Live r)
    (hkeys : r.KeysIn p) (hbelow : store.schema.Below r.className index.definition.className)
    {holds : Key → Prop}
    (hcongr : ∀ key other, p key → p other → key.compare other = .eq → (holds key ↔ holds other)) :
    (∃ key, index.buckets.Holds key r.rid ∧ holds key) ↔
      ∃ key, KeyOf index.definition r key ∧ holds key := by
  constructor
  · rintro ⟨key, ⟨b, hb, rfl, hrid⟩, hkey⟩
    have hp := h.sorted.within b hb
    -- what is listed under a key is a live record with an equal key, and an identity has one record
    obtain ⟨s, hs, hsame, -, own, hown, heq⟩ :=
      (h.finds_iff hp).mp ⟨b, hb, Key.compare_self _, hrid⟩
    obtain rfl := hsound.live_eq hs hr hsame
    have hof := keyOf_of_mem_keysFor hown
    exact ⟨own, hof, (hcongr _ _ hp (hkeys _ _ hof) heq).mp hkey⟩
  · rintro ⟨key, hof, hkey⟩
    obtain ⟨own, hown, heq⟩ := exists_mem_keysFor hnulls hof
    have hp := hkeys _ _ (keyOf_of_mem_keysFor hown)
    obtain ⟨b, hb, hsame, hrid⟩ :=
      (h.finds_iff hp).mpr ⟨r, hr, rfl, hbelow, own, hown, Key.compare_self own⟩
    refine ⟨b.key, ⟨b, hb, rfl, hrid⟩, ?_⟩
    rw [← hcongr _ _ hp (h.sorted.within b hb) hsame, hcongr _ _ hp (hkeys _ _ hof) heq]
    exact hkey

end StoredIndex

namespace Store

open StoredIndex

variable {p : Key → Prop}

/-- An index that `Reflects` a store reflects every store with the same live records and the same
inheritance among their classes. -/
theorem reflects_congr {index : StoredIndex} {store after : Store} (h : index.Reflects p store)
    (hlive : ∀ r, after.Live r ↔ store.Live r)
    (hbelow : ∀ r ancestor, store.Live r →
      (after.schema.Below r.className ancestor ↔ store.schema.Below r.className ancestor)) :
    index.Reflects p after where
  sorted := h.sorted
  finds_iff {key rid} hkey := by
    rw [h.finds_iff hkey]
    refine exists_congr fun r => ?_
    rw [hlive]
    refine and_congr_right fun hr => ?_
    rw [hbelow r _ hr]

section

variable {store after : Store} (hsound : store.Sound)
  (hreflects : ∀ index ∈ store.indexes, index.Reflects p store)

include hsound hreflects

/-- `createClass` keeps every index in step: no record is below a new class. -/
theorem reflects_createClass {name : String} {superclass : Option String} {clusters : Nat}
    {isAbstract : Bool}
    (hok : store.createClass name superclass clusters isAbstract = .ok after) :
    ∀ index ∈ after.indexes, index.Reflects p after := by
  have hlive := fun r => @live_createClass _ _ _ _ _ _ hok r
  obtain ⟨grown, ids, count, -, -, hgrow, -, -, rfl⟩ := createClass_ok hok
  intro index hindex
  refine reflects_congr (hreflects index hindex) hlive fun r ancestor hr => ?_
  refine hgrow.below_iff hsound.forest ?_
  rintro heq
  have hdeclared := declares_of_mem_clusters (hsound.cluster_of_live hr)
  simp [heq, hgrow.fresh] at hdeclared

omit hsound in
/-- `linkProperty` keeps every index in step, as it changes neither records nor inheritance. -/
theorem reflects_linkProperty {className property target : String}
    (hok : store.linkProperty className property target = .ok after) :
    ∀ index ∈ after.indexes, index.Reflects p after := by
  obtain rfl := linkProperty_ok hok
  intro index hindex
  refine reflects_congr (hreflects index hindex) (fun r => Iff.rfl) fun r ancestor _ => ?_
  have hname : ∀ c : ClassDef,
      { c with links := setLink c.links property target }.name = c.name := fun _ => rfl
  exact Schema.below_congr (Schema.superclass?_update hname fun _ => rfl)

omit hreflects in
/-- `recordsUnder` gives the live records of the class and of those below it. A new index is filled
from these. -/
theorem mem_recordsUnder {className : String} {r : Record} :
    r ∈ store.recordsUnder className ↔
      store.Live r ∧ store.schema.Below r.className className := by
  simp only [recordsUnder, List.mem_flatMap, List.mem_filter, hsound.forest.isSubclassOf_iff]
  constructor
  · rintro ⟨c, ⟨hc, hbelow⟩, hr⟩
    rw [← (hsound.recordPlace c hc r hr).2.1] at hbelow
    exact ⟨⟨c, hc, hr⟩, hbelow⟩
  · rintro ⟨⟨c, hc, hr⟩, hbelow⟩
    rw [(hsound.recordPlace c hc r hr).2.1] at hbelow
    exact ⟨c, ⟨hc, hbelow⟩, hr⟩

omit hsound in
/-- `setIndexFailing` keeps every index in step. The switch is no part of its entries. -/
theorem reflects_failIndex (name : String) (failing : Bool) :
    ∀ index ∈ (store.setIndexFailing name failing).indexes,
      index.Reflects p (store.setIndexFailing name failing) := by
  intro changed hchanged
  obtain ⟨index, hindex, rfl⟩ := List.mem_map.mp hchanged
  obtain ⟨hsorted, hfinds⟩ := hreflects index hindex
  split
  · exact ⟨hsorted, hfinds⟩
  · exact ⟨hsorted, hfinds⟩

variable (htotal : TotalOn Key.compare p)

include htotal

/-- Declaring an index keeps every index in step. The new one is filled from the records under its
class, which are those that it has to reflect (`fill_finds`, `mem_recordsUnder`). -/
theorem reflects_createIndex {name : String} {kind : IndexKind} {definition : IndexDefinition}
    (hkeys : ∀ r, store.Live r → r.KeysIn p)
    (hok : store.createIndex name kind definition = .ok after) :
    ∀ index ∈ after.indexes, index.Reflects p after := by
  obtain ⟨filled, -, hfill, rfl⟩ := createIndex_ok hok
  intro index hindex
  rcases List.mem_append.mp hindex with hindex | hindex
  · exact reflects_congr (hreflects index hindex) (fun _ => Iff.rfl) fun _ _ _ => Iff.rfl
  · obtain rfl := List.mem_singleton.mp hindex
    -- the new index starts empty and is filled from the records of its class
    obtain ⟨buckets, rfl, hsorted, hfinds⟩ := fill_finds htotal (Buckets.sortedIn_empty p)
      (fun r hr => hkeys r ((mem_recordsUnder hsound).mp hr).1) hfill
    refine ⟨hsorted, fun {key rid} hkey => (hfinds key rid hkey).trans ?_⟩
    have hnone : ¬Buckets.Finds (StoredIndex.empty name kind definition).buckets key rid := by
      simp [Buckets.Finds, StoredIndex.empty, LeveledList.empty]
    simp only [hnone, false_or, mem_recordsUnder hsound, and_assoc]
    constructor
    · rintro ⟨r, hr, hbelow, hrid, hown⟩
      exact ⟨r, hr, hrid, hbelow, hown⟩
    · rintro ⟨r, hr, hrid, hbelow, hown⟩
      exact ⟨r, hr, hbelow, hrid, hown⟩

/-- An insert keeps every index in step. An index that covers the class of the record gets its keys
(`putAll_finds`). The others stay as they are, and the record is not below their class. -/
theorem reflects_insert {className : String} {fields : Fields} {rid : Rid}
    (hkeys : ∀ record, store.newRecord className fields = .ok record → record.KeysIn p)
    (hok : store.insert className fields = .ok (rid, after)) :
    ∀ index ∈ after.indexes, index.Reflects p after := by
  obtain ⟨record, indexes, hrecord, -, hput, hafter⟩ := insert_ok hok
  have hlive := fun r => @Sound.live_insert _ _ _ _ _ _ hsound hrecord hafter r
  have hschema : after.schema = store.schema := by rw [hafter]
  intro changed hchanged
  rw [hafter] at hchanged
  obtain ⟨index, hindex, hput⟩ := Steps.exists_of_mapM_ok hput hchanged
  obtain ⟨hsorted, hfinds⟩ := hreflects index hindex
  split at hput
  -- an index that covers the class gets the keys of the record
  next hcovers =>
    obtain ⟨buckets, rfl, hsorted', hfinds'⟩ := putAll_finds htotal hsorted
      (fun key hkey => hkeys record hrecord _ key (keyOf_of_mem_keysFor hkey)) hput
    refine ⟨hsorted', fun {key other} hkey => (hfinds' key other hkey).trans ?_⟩
    rw [List.contains_iff_mem, hsound.forest.mem_ancestors_iff] at hcovers
    rw [hfinds hkey, hschema]
    constructor
    · rintro (⟨r, hr, hrid, hbelow, hown⟩ | ⟨hown, rfl⟩)
      · exact ⟨r, (hlive r).mpr (.inl hr), hrid, hbelow, hown⟩
      · exact ⟨record, (hlive record).mpr (.inr rfl), rfl, hcovers, hown⟩
    · rintro ⟨r, hr, hrid, hbelow, hown⟩
      rcases (hlive r).mp hr with hr | rfl
      · exact .inl ⟨r, hr, hrid, hbelow, hown⟩
      · exact .inr ⟨hown, hrid.symm⟩
  next hcovers =>
    simp only [Except.ok.injEq] at hput
    subst hput
    refine ⟨hsorted, fun {key other} hkey => (hfinds hkey).trans ?_⟩
    rw [List.contains_iff_mem, hsound.forest.mem_ancestors_iff] at hcovers
    rw [hschema]
    constructor
    · rintro ⟨r, hr, hrid, hbelow, hown⟩
      exact ⟨r, (hlive r).mpr (.inl hr), hrid, hbelow, hown⟩
    · rintro ⟨r, hr, hrid, hbelow, hown⟩
      rcases (hlive r).mp hr with hr | rfl
      · exact ⟨r, hr, hrid, hbelow, hown⟩
      · exact absurd hbelow hcovers

/-- A delete keeps every index in step. `removeAll_finds` takes the keys away that the record
contributed. Another record keeps its entries under the same keys. -/
theorem reflects_delete (rid : Rid) (hkeys : ∀ r, store.Live r → r.KeysIn p) :
    ∀ index ∈ (store.delete rid).2.indexes, index.Reflects p (store.delete rid).2 := by
  have hlive := fun r => @Sound.live_delete store rid hsound r
  rcases delete_eq store rid with ⟨-, hdelete⟩ | ⟨record, hload, hdelete⟩
  · rw [hdelete]
    exact hreflects
  · obtain ⟨hrecord, hrid⟩ := hsound.load_eq_some_iff.mp hload
    have hschema : (store.delete rid).2.schema = store.schema := by rw [hdelete]
    intro changed hchanged
    rw [hdelete] at hchanged
    obtain ⟨index, hindex, rfl⟩ := List.mem_map.mp hchanged
    obtain ⟨hsorted, hfinds⟩ := hreflects index hindex
    split
    next hcovers =>
      -- an index that covers the class loses the keys of the record, under its identity only
      obtain ⟨buckets, heq, hsorted', hfinds'⟩ :=
        @removeAll_finds p htotal index _ record.rid hsorted
          (fun key hkey => hkeys record hrecord _ key (keyOf_of_mem_keysFor hkey))
      rw [heq]
      refine ⟨hsorted', fun {key other} hkey => (hfinds' key other hkey).trans ?_⟩
      rw [hfinds hkey, hschema]
      constructor
      · rintro ⟨⟨r, hlr, rfl, hbelow, hown⟩, hne⟩
        refine ⟨r, (hlive r).mpr ⟨hlr, fun heq => hne ?_⟩, rfl, hbelow, hown⟩
        have hsame := hsound.live_eq hlr hrecord (by rw [heq, hrid])
        exact ⟨hsame ▸ hown, by rw [heq, hrid]⟩
      · rintro ⟨r, hlr, rfl, hbelow, hown⟩
        obtain ⟨hlr, hne⟩ := (hlive r).mp hlr
        exact ⟨⟨r, hlr, rfl, hbelow, hown⟩, fun heq => hne (by rw [heq.2, hrid])⟩
    next hcovers =>
      refine ⟨hsorted, fun {key other} hkey => (hfinds hkey).trans ?_⟩
      rw [List.contains_iff_mem, hsound.forest.mem_ancestors_iff] at hcovers
      rw [hschema]
      constructor
      · rintro ⟨r, hlr, rfl, hbelow, hown⟩
        refine ⟨r, (hlive r).mpr ⟨hlr, fun heq => hcovers ?_⟩, rfl, hbelow, hown⟩
        rw [← hsound.live_eq hlr hrecord (by rw [heq, hrid])]
        exact hbelow
      · rintro ⟨r, hlr, rfl, hbelow, hown⟩
        exact ⟨r, ((hlive r).mp hlr).1, rfl, hbelow, hown⟩

end

/-- Where the order is total on the keys of what is inserted (`htotal`, `hadmits`), every index of a
reachable store reflects it. -/
theorem Reachable.reflects {admits : Fields → Prop} {store : Store}
    (htotal : TotalOn Key.compare p)
    (hadmits : ∀ record : Record, admits record.fields → record.KeysIn p)
    (h : Reachable admits store) : ∀ index ∈ store.indexes, index.Reflects p store := by
  have hlive {store : Store} (hreach : Reachable admits store) (r : Record) (hr : store.Live r) :
      r.KeysIn p := hadmits r (hreach.admits_of_live hr)
  have hnew {store : Store} {className : String} {fields : Fields} (hfields : admits fields)
      (record : Record) (hrecord : store.newRecord className fields = .ok record) :
      record.KeysIn p := hadmits record (fields_of_newRecord hrecord ▸ hfields)
  induction h with
  | empty => simp [Store.empty]
  | createClass hreach hok ih => exact reflects_createClass hreach.sound ih hok
  | linkProperty _ hok ih => exact reflects_linkProperty ih hok
  | createIndex hreach hok ih =>
      exact reflects_createIndex hreach.sound ih htotal (hlive hreach) hok
  | insert hreach hfields hok ih =>
      exact reflects_insert hreach.sound ih htotal (hnew hfields) hok
  | insertFails _ hfields hfail ih =>
      -- an insert that fails has written nothing, because the order is total
      rw [leftBehind_of_error hfail fun record hrecord hfree =>
        ⟨record.rid, insert_of_free htotal (fun index hindex => (ih index hindex).sorted) hrecord
          (fun _ _ key hkey => hnew hfields record hrecord _ key (keyOf_of_mem_keysFor hkey)) hfree⟩]
      exact ih
  | delete rid hreach ih => exact reflects_delete hreach.sound ih htotal rid (hlive hreach)
  | failIndex name failing _ ih => exact reflects_failIndex ih name failing
  | failCluster _ _ ih =>
      exact fun index hindex =>
        reflects_congr (ih index hindex) (fun _ => Iff.rfl) fun _ _ _ => Iff.rfl

/-- Where the numbers of what is inserted are `Separated`, every index of a `Reachable` store
reflects it. -/
theorem Reachable.reflects_of_separated {p : Int64 → Prop} {q : Binary64 → Prop}
    (hseparated : Value.Separated p q) {store : Store}
    (h : Reachable (fun fields => Value.EntriesIn p q fields) store) :
    ∀ index ∈ store.indexes, index.Reflects (fun key => Value.ItemsIn p q key) store :=
  h.reflects (Key.totalOn_separated hseparated) fun _ hfields _ _ hkey => hkey.itemsIn hfields

/-- Where only exact fields are inserted, every index of a reachable store mirrors it.
`Reachable.reflects` gives the entries up to equality, and exact keys that compare equal are one
key. -/
theorem Reachable.mirrors {admits : Fields → Prop} {store : Store}
    (hadmits : ∀ fields, admits fields → Value.entriesExact fields = true)
    (h : Reachable admits store) : ∀ index ∈ store.indexes, index.Mirrors store := by
  have hkeys (record : Record) (hrecord : admits record.fields) :
      record.KeysIn fun key => key.isExact = true :=
    fun _ _ hkey => hkey.isExact (hadmits _ hrecord)
  intro index hindex
  obtain ⟨hsorted, hfinds⟩ := h.reflects Key.totalOn_exact hkeys index hindex
  refine ⟨hsorted.ordered, fun {key rid} => ⟨fun hholds => ?_, ?_⟩⟩
  · have hkey := hsorted.ordered.isExact_of_holds hholds
    obtain ⟨r, hr, hrid, hbelow, own, hown, heq⟩ :=
      (hfinds hkey).mp ((hsorted.ordered.finds_iff hkey).mpr hholds)
    have hexact := hkeys r (h.admits_of_live hr) _ own (keyOf_of_mem_keysFor hown)
    -- among exact keys equal ones are the same
    obtain rfl := (Key.compare_eq_iff hkey hexact).mp heq
    exact ⟨r, hr, hrid, hbelow, hown⟩
  · rintro ⟨r, hr, hrid, hbelow, hown⟩
    have hkey := hkeys r (h.admits_of_live hr) _ key (keyOf_of_mem_keysFor hown)
    exact (hsorted.ordered.finds_iff hkey).mp
      ((hfinds hkey).mpr ⟨r, hr, hrid, hbelow, key, hown, Key.compare_self key⟩)

end Store

end RecordQuery
