import RecordQuery.Proofs.InPlace
import RecordQuery.Proofs.Schema
import RecordQuery.Proofs.ValueOrder

/-!
# `RecordQuery.Proofs.Reachable`: the stores that changes reach

Most theorems about queries are about a store that the program can come to have, and not about any
record of type `Store`. `Store.Reachable admits` are the stores that declarations, inserts, deletes
and switches of failing reads make of the empty store. `admits` limits the fields that are inserted,
mostly to exact ones (`Value.entriesExact`). An insert that fails halfway reaches
`Store.leftBehind`, so a store with keys of a record that was never stored is reachable too.
`Store.ofChanges` says the same with a list of changes, and `Store.ofAccesses` also lets whoever
holds an index write to it between changes, which the program allows.

`Store.Sound` is what all of them keep up about classes, clusters and records. It says nothing of
indexes. Those are treated one at a time in `RecordQuery.Proofs.IndexInvariants`, and their entries
in `RecordQuery.Proofs.Mirror`.

For every change there is an inversion lemma (`createClass_ok`, `insert_ok`, `delete_eq` and so on)
that says all that the change does to the store. Every invariant of stores is derived from these and
`change_cases`, and no later proof opens a change again.

The theorems:

* `Store.change_cases`: what a change can make of a store.
* `Store.Reachable.change_induction`: what lasts through every change holds of reachable stores.
* `Store.Reachable.sound`: every reachable store is sound.
* `Store.Sound.load_eq_some_iff`: the record of an identity is the live record that has it.
* `Store.Reachable.admits_of_live`: live records have fields that could be inserted.
* `Store.reachable_ofChanges`: a list of changes reaches a store.
* `Store.sound_ofAccesses`: a store is sound even when its indexes are written to in between.
-/

set_option autoImplicit false

namespace RecordQuery

namespace Store

/-- The stores that changes reach from the empty one, when only fields with `admits` are inserted. A
change that fails before its first write reaches nothing new, so only `insertFails` has a case of
its own. Failing indexes and clusters are faults that a test may switch on (`setIndexFailing`,
`setFailingCluster`). -/
inductive Reachable (admits : Fields → Prop) : Store → Prop
  | empty : Reachable admits .empty
  | createClass {store after : Store} {name : String} {superclass : Option String}
      {clusters : Nat} {isAbstract : Bool} :
      Reachable admits store →
      store.createClass name superclass clusters isAbstract = .ok after →
      Reachable admits after
  | linkProperty {store after : Store} {className property target : String} :
      Reachable admits store → store.linkProperty className property target = .ok after →
      Reachable admits after
  | createIndex {store after : Store} {name : String} {kind : IndexKind}
      {definition : IndexDefinition} :
      Reachable admits store → store.createIndex name kind definition = .ok after →
      Reachable admits after
  | insert {store after : Store} {className : String} {fields : Fields} {rid : Rid} :
      Reachable admits store → admits fields →
      store.insert className fields = .ok (rid, after) → Reachable admits after
  | insertFails {store : Store} {className : String} {fields : Fields} {failure : Failure} :
      Reachable admits store → admits fields →
      store.insert className fields = .error failure →
      Reachable admits (store.leftBehind className fields)
  | delete {store : Store} (rid : Rid) :
      Reachable admits store → Reachable admits (store.delete rid).2
  | failIndex {store : Store} (name : String) (failing : Bool) :
      Reachable admits store → Reachable admits (store.setIndexFailing name failing)
  | failCluster {store : Store} (id : Option ClusterId) :
      Reachable admits store → Reachable admits (store.setFailingCluster id)

/-- The record is in one of the `clusters` of the store. A deleted record is in none. -/
def Live (store : Store) (record : Record) : Prop :=
  ∃ c ∈ store.clusters, record ∈ c.records

/-- What changes keep up about classes, clusters and records. Indexes are not part of it, so a write
to `indexes` keeps it. -/
structure Sound (store : Store) : Prop where
  /-- The classes are a forest. -/
  forest : store.schema.Forest
  /-- The clusters are numbered upwards. -/
  clusterOrder : store.clusters.Pairwise fun c d => c.id < d.id
  /-- The next number is free, so no cluster is numbered twice. -/
  clusterFresh : ∀ c ∈ store.clusters, c.id < store.nextCluster
  /-- A cluster belongs to the class that it names. -/
  owner : ∀ c ∈ store.clusters, c.id ∈ store.schema.clusters c.className
  /-- A class has the clusters that it lists. -/
  owned : ∀ {name : String} {id : ClusterId}, id ∈ store.schema.clusters name →
    ∃ c ∈ store.clusters, c.id = id ∧ c.className = name
  /-- An abstract class has no clusters. -/
  abstractEmpty : ∀ {name : String}, store.schema.isAbstract name = true →
    store.schema.clusters name = []
  /-- A record has the cluster and the class of its place, and its position is below the one that
  the next record gets. So no identity is given twice, not even after a delete. -/
  recordPlace : ∀ c ∈ store.clusters, ∀ r ∈ c.records,
    r.rid.cluster = c.id ∧ r.className = c.className ∧ r.rid.position < c.nextPosition
  /-- A cluster lists its records upwards. -/
  recordOrder : ∀ c ∈ store.clusters,
    c.records.Pairwise fun r s => r.rid.position < s.rid.position

/-! ## Reading a sound store

What can be read off `Sound`: a cluster number names one cluster, an identity one live record, and a
cluster one class. Later proofs read a store through these facts. -/

/-- Elements of a list that ascends by `number` with the same number are the same. -/
theorem eq_of_pairwise_lt {α : Type} {number : α → Nat} {xs : List α}
    (h : xs.Pairwise fun a b => number a < number b) {a b : α} (ha : a ∈ xs) (hb : b ∈ xs)
    (hab : number a = number b) : a = b := by
  have hnodup : (xs.map number).Nodup :=
    List.pairwise_map.mpr (h.imp fun hlt => Nat.ne_of_lt hlt)
  exact List.inj_on_of_nodup_map hnodup ha hb hab

/-- What `find?` gives for a number is in the list and has the number. -/
theorem mem_of_find?_beq {α β : Type} [BEq β] [LawfulBEq β] {number : α → β} {xs : List α}
    {a : α} {b : β} (h : xs.find? (fun x => number x == b) = some a) :
    a ∈ xs ∧ number a = b :=
  ⟨List.mem_of_find?_eq_some h, by simpa using List.find?_some h⟩

/-- The only element with a number is what `find?` gives for it. -/
theorem find?_beq_of_unique {α β : Type} [BEq β] [LawfulBEq β] {number : α → β} {xs : List α}
    {a : α} {b : β} (ha : a ∈ xs) (hb : number a = b)
    (hunique : ∀ x ∈ xs, number x = b → x = a) :
    xs.find? (fun x => number x == b) = some a := by
  cases hfind : xs.find? fun x => number x == b with
  | none =>
      have hnone := List.find?_eq_none.mp hfind a ha
      simp [hb] at hnone
  | some x =>
      obtain ⟨hx, hxb⟩ := mem_of_find?_beq hfind
      rw [hunique x hx hxb]

/-- A class with `clusters` is declared. -/
theorem declares_of_mem_clusters {schema : Schema} {name : String} {id : ClusterId}
    (hid : id ∈ schema.clusters name) : schema.declares name = true := by
  unfold Schema.clusters at hid
  unfold Schema.declares
  cases hfind : schema.find? name with
  | none => simp [hfind] at hid
  | some c => rfl

section

variable {store : Store} (h : store.Sound)

include h

/-- Clusters of one number are one cluster, as `clusterOrder` numbers them upwards. -/
theorem Sound.cluster_eq {c d : Cluster} (hc : c ∈ store.clusters) (hd : d ∈ store.clusters)
    (hid : c.id = d.id) : c = d :=
  eq_of_pairwise_lt h.clusterOrder hc hd hid

/-- `Store.cluster?` gives the cluster of the number, if there is one. -/
theorem Sound.cluster?_eq_some_iff {id : ClusterId} {c : Cluster} :
    store.cluster? id = some c ↔ c ∈ store.clusters ∧ c.id = id := by
  refine ⟨fun hfind => mem_of_find?_beq hfind, fun ⟨hc, hid⟩ => ?_⟩
  exact find?_beq_of_unique hc hid fun d hd hdid => h.cluster_eq hd hc (by rw [hdid, hid])

/-- `Store.load` gives the live record of the identity, if there is one. It looks for the cluster
and then for the position, and `recordPlace` and `recordOrder` make both of them unique. -/
theorem Sound.load_eq_some_iff {rid : Rid} {r : Record} :
    store.load rid = some r ↔ store.Live r ∧ r.rid = rid := by
  unfold load
  rw [Option.bind_eq_some_iff]
  constructor
  · rintro ⟨c, hcluster, hfind⟩
    obtain ⟨hr, hrid⟩ := mem_of_find?_beq hfind
    exact ⟨⟨c, (h.cluster?_eq_some_iff.mp hcluster).1, hr⟩, hrid⟩
  · rintro ⟨⟨c, hc, hr⟩, rfl⟩
    obtain ⟨hcluster, -, -⟩ := h.recordPlace c hc r hr
    refine ⟨c, h.cluster?_eq_some_iff.mpr ⟨hc, hcluster.symm⟩,
      find?_beq_of_unique hr rfl fun s hs hsrid => ?_⟩
    exact eq_of_pairwise_lt (h.recordOrder c hc) hs hr (by rw [hsrid])

/-- `Live` records of one identity are one record. -/
theorem Sound.live_eq {r s : Record} (hr : store.Live r) (hs : store.Live s)
    (hrid : r.rid = s.rid) : r = s := by
  have hload := h.load_eq_some_iff.mpr ⟨hr, hrid⟩
  rw [h.load_eq_some_iff.mpr ⟨hs, rfl⟩] at hload
  injection hload with heq
  exact heq.symm

/-- The class of a `Live` record is declared and has the record's cluster. -/
theorem Sound.cluster_of_live {r : Record} (hr : store.Live r) :
    r.rid.cluster ∈ store.schema.clusters r.className := by
  obtain ⟨c, hc, hr⟩ := hr
  obtain ⟨hcluster, hclass, -⟩ := h.recordPlace c hc r hr
  rw [hcluster, hclass]
  exact h.owner c hc

/-- A cluster belongs to one class: `owned` gives the class that the cluster itself names. -/
theorem Sound.class_eq {id : ClusterId} {a b : String} (ha : id ∈ store.schema.clusters a)
    (hb : id ∈ store.schema.clusters b) : a = b := by
  obtain ⟨c, hc, hcid, rfl⟩ := h.owned ha
  obtain ⟨d, hd, hdid, rfl⟩ := h.owned hb
  rw [h.cluster_eq hc hd (by rw [hcid, hdid])]

/-- A live record is in one of the `clusters` of its class, and of no other class. -/
theorem Sound.live_mem_clusters_iff {r : Record} (hr : store.Live r) {name : String} :
    r.rid.cluster ∈ store.schema.clusters name ↔ r.className = name := by
  have hown := h.cluster_of_live hr
  exact ⟨fun hmem => h.class_eq hown hmem, fun heq => heq ▸ hown⟩

end

/-! ## Changes keep a store sound

One inversion lemma for each change, and after it the proof that the change keeps a store sound. -/

/-- The empty store is `Sound`: it has no class and no cluster. -/
theorem sound_empty : Store.empty.Sound where
  forest := Schema.forest_nil
  clusterOrder := List.Pairwise.nil
  clusterFresh c hc := by simp [Store.empty] at hc
  owner c hc := by simp [Store.empty] at hc
  owned {_ _} hid := by simp [Store.empty, Schema.clusters, Schema.find?] at hid
  abstractEmpty {_} _ := by simp [Store.empty, Schema.clusters, Schema.find?]
  recordPlace c hc := by simp [Store.empty] at hc
  recordOrder c hc := by simp [Store.empty] at hc

/-- What declaring a class does. The schema grows by the class (`GrowsBy`), which gets `count` new
clusters with the next numbers, and none if it is abstract. The store gets the empty clusters, and
nothing else changes. -/
theorem createClass_ok {store after : Store} {name : String} {superclass : Option String}
    {clusters : Nat} {isAbstract : Bool}
    (hok : store.createClass name superclass clusters isAbstract = .ok after) :
    ∃ (grown : Schema) (ids : List ClusterId) (count : Nat),
      ids = (List.range count).map (store.nextCluster + ·) ∧
      (isAbstract = true → count = 0) ∧
      store.schema.GrowsBy grown name superclass ∧
      (∀ other, grown.clusters other =
        if other = name then ids else store.schema.clusters other) ∧
      (∀ other, grown.isAbstract other =
        if other = name then isAbstract else store.schema.isAbstract other) ∧
      after = { store with
        schema := grown
        clusters := store.clusters ++ ids.map fun id => ⟨id, name, [], 0⟩
        nextCluster := store.nextCluster + count } := by
  unfold createClass at hok
  split at hok
  · simp at hok
  next hfresh =>
    have hfresh : store.schema.declares name = false := by simpa using hfresh
    let count := if isAbstract = true then 0 else max clusters 1
    let ids := (List.range count).map (store.nextCluster + ·)
    let definition : ClassDef := ⟨name, superclass, [], ids, isAbstract, []⟩
    have habstract : isAbstract = true → count = 0 := fun h => if_pos h
    cases superclass with
    | none =>
        simp only [Except.ok.injEq] at hok
        exact ⟨_, ids, count, rfl, habstract,
          Schema.growsBy_top (c := definition) hfresh rfl rfl,
          Schema.clusters_append_fresh (c := definition) hfresh,
          Schema.isAbstract_append_fresh (c := definition) hfresh, hok.symm⟩
    | some parent =>
        dsimp only at hok
        split at hok
        next hparent =>
          simp only [Except.ok.injEq] at hok
          -- the superclass gets the name of its subclass, and keeps its clusters
          have hname : ∀ k, (ClassDef.withSubclass name k).name = k.name := fun _ => rfl
          have hfreshBelow : (store.schema.update parent (ClassDef.withSubclass name)).declares
              definition.name = false := by
            rw [Schema.declares_update hname]
            exact hfresh
          refine ⟨_, ids, count, rfl, habstract,
            Schema.growsBy_below (c := definition) hfresh hparent rfl rfl, fun other => ?_,
            fun other => ?_, hok.symm⟩
          · rw [Schema.clusters_append_fresh hfreshBelow, Schema.clusters_update hname fun _ => rfl]
          · rw [Schema.isAbstract_append_fresh hfreshBelow,
              Schema.isAbstract_update hname fun _ => rfl]
        next => simp at hok

/-- Declaring a class keeps a store sound. The new numbers start at `nextCluster`, so `clusterFresh`
makes them larger than all others. -/
theorem Sound.createClass {store after : Store} {name : String} {superclass : Option String}
    {clusters : Nat} {isAbstract : Bool} (h : store.Sound)
    (hok : store.createClass name superclass clusters isAbstract = .ok after) :
    after.Sound := by
  obtain ⟨grown, ids, count, hids, hcount, hgrow, hclusters, habstract, rfl⟩ :=
    createClass_ok hok
  -- the new clusters get numbers above all others, and the class is new
  have hfresh : ∀ id ∈ ids, store.nextCluster ≤ id ∧ id < store.nextCluster + count := by
    intro id hid
    rw [hids] at hid
    obtain ⟨i, hi, rfl⟩ := List.mem_map.mp hid
    exact ⟨Nat.le_add_right _ _, Nat.add_lt_add_left (List.mem_range.mp hi) _⟩
  have hold : ∀ c ∈ store.clusters, c.className ≠ name := by
    rintro c hc rfl
    have hdeclared := declares_of_mem_clusters (h.owner c hc)
    simp [hgrow.fresh] at hdeclared
  constructor
  case forest => exact h.forest.grow hgrow
  case clusterOrder =>
    refine List.pairwise_append.mpr ⟨h.clusterOrder, ?_, ?_⟩
    · rw [List.pairwise_map, hids, List.pairwise_map]
      exact List.pairwise_lt_range.imp fun hlt => Nat.add_lt_add_left hlt _
    · intro c hc d hd
      obtain ⟨id, hid, rfl⟩ := List.mem_map.mp hd
      exact Nat.lt_of_lt_of_le (h.clusterFresh c hc) (hfresh id hid).1
  case clusterFresh =>
    intro c hc
    rcases List.mem_append.mp hc with hc | hc
    · exact Nat.lt_of_lt_of_le (h.clusterFresh c hc) (Nat.le_add_right _ _)
    · obtain ⟨id, hid, rfl⟩ := List.mem_map.mp hc
      exact (hfresh id hid).2
  case owner =>
    intro c hc
    rw [hclusters]
    rcases List.mem_append.mp hc with hc | hc
    · rw [if_neg (hold c hc)]
      exact h.owner c hc
    · obtain ⟨id, hid, rfl⟩ := List.mem_map.mp hc
      rw [if_pos rfl]
      exact hid
  case owned =>
    intro other id hid
    rw [hclusters] at hid
    split at hid
    next heq =>
      exact ⟨⟨id, name, [], 0⟩, List.mem_append_right _ (List.mem_map_of_mem hid), rfl, heq.symm⟩
    next =>
      obtain ⟨c, hc, hcid, hcname⟩ := h.owned hid
      exact ⟨c, List.mem_append_left _ hc, hcid, hcname⟩
  case abstractEmpty =>
    -- an abstract class gets no cluster
    intro other hother
    rw [habstract] at hother
    rw [hclusters]
    split at hother
    next heq =>
      rw [if_pos heq, hids, hcount hother]
      rfl
    next hne =>
      rw [if_neg hne]
      exact h.abstractEmpty hother
  case recordPlace =>
    intro c hc r hr
    rcases List.mem_append.mp hc with hc | hc
    · exact h.recordPlace c hc r hr
    · obtain ⟨id, hid, rfl⟩ := List.mem_map.mp hc
      simp at hr
  case recordOrder =>
    intro c hc
    rcases List.mem_append.mp hc with hc | hc
    · exact h.recordOrder c hc
    · obtain ⟨id, hid, rfl⟩ := List.mem_map.mp hc
      exact List.Pairwise.nil

/-- The inversion of `linkProperty`: the class gets one more link in the schema. -/
theorem linkProperty_ok {store after : Store} {className property target : String}
    (hok : store.linkProperty className property target = .ok after) :
    after = { store with schema := store.schema.update className fun c =>
      { c with links := setLink c.links property target } } := by
  unfold linkProperty at hok
  split at hok
  · simp at hok
  · split at hok
    · simp at hok
    · simpa using hok.symm

/-- Declaring a link keeps a store sound, by `Schema.Forest.update`. -/
theorem Sound.linkProperty {store after : Store} {className property target : String}
    (h : store.Sound) (hok : store.linkProperty className property target = .ok after) :
    after.Sound := by
  obtain rfl := linkProperty_ok hok
  have hname : ∀ c : ClassDef, { c with links := setLink c.links property target }.name = c.name :=
    fun _ => rfl
  refine ⟨h.forest.update hname (fun _ => rfl) fun _ => rfl, h.clusterOrder, h.clusterFresh,
    fun c hc => ?_, fun {other id} hid => ?_, fun {other} hother => ?_, h.recordPlace,
    h.recordOrder⟩
  · rw [Schema.clusters_update hname fun _ => rfl]
    exact h.owner c hc
  · rw [Schema.clusters_update hname fun _ => rfl] at hid
    exact h.owned hid
  · rw [Schema.isAbstract_update hname fun _ => rfl] at hother
    rw [Schema.clusters_update hname fun _ => rfl]
    exact h.abstractEmpty hother

/-- Changing other things than `schema`, `clusters` and `nextCluster` keeps a store sound. Declaring
an index, writes to indexes and switches of failing reads are such changes. -/
theorem Sound.of_eq {store after : Store} (h : store.Sound)
    (hschema : after.schema = store.schema) (hclusters : after.clusters = store.clusters)
    (hnext : after.nextCluster = store.nextCluster) : after.Sound := by
  obtain ⟨forest, order, fresh, owner, owned, abstractEmpty, place, recordOrder⟩ := h
  rw [← hschema] at forest owner owned abstractEmpty
  rw [← hclusters] at order fresh owner owned place recordOrder
  rw [← hnext] at fresh
  exact ⟨forest, order, fresh, owner, owned, abstractEmpty, place, recordOrder⟩

/-- The inversion of `createIndex`. The class is declared, the index is filled with the keys of the
records under the class, one record after the other, and the store gets the index if no key was
refused. -/
theorem createIndex_ok {store after : Store} {name : String} {kind : IndexKind}
    {definition : IndexDefinition} (hok : store.createIndex name kind definition = .ok after) :
    ∃ index, store.schema.declares definition.className = true ∧
      (store.recordsUnder definition.className).foldlM
        (fun index record => index.putAll (index.keysFor record) record.rid)
        (StoredIndex.empty name kind definition) = .ok index ∧
      after = { store with indexes := store.indexes ++ [index] } := by
  unfold createIndex at hok
  split at hok
  · simp at hok
  next hdeclared =>
    split at hok
    · simp at hok
    · cases hfold : (store.recordsUnder definition.className).foldlM
          (fun index record => index.putAll (index.keysFor record) record.rid)
          (StoredIndex.empty name kind definition) with
      | error failure => simp [hfold, bind, Except.bind] at hok
      | ok index =>
          rw [hfold] at hok
          refine ⟨index, by simpa using hdeclared, rfl, ?_⟩
          simpa [bind, Except.bind, pure, Except.pure] using hok.symm

/-- What an insert does. The record is the one of `newRecord`, its keys are in the indexes, and its
cluster has it as the last record. -/
theorem insert_ok {store after : Store} {className : String} {fields : Fields} {rid : Rid}
    (hok : store.insert className fields = .ok (rid, after)) :
    ∃ record indexes, store.newRecord className fields = .ok record ∧ rid = record.rid ∧
      store.addKeys record = .ok indexes ∧
      after = { store with
        indexes
        clusters := store.updateCluster record.rid.cluster fun c =>
          { c with records := c.records ++ [record], nextPosition := c.nextPosition + 1 }
        inserted := store.inserted + 1 } := by
  unfold insert at hok
  -- each step of the insert may fail: the place, the check for keys that are taken, the indexes
  cases hrecord : store.newRecord className fields with
  | error failure => simp [hrecord, bind, Except.bind] at hok
  | ok record =>
      simp only [hrecord, bind, Except.bind] at hok
      split at hok
      · simp [throw, throwThe, MonadExceptOf.throw] at hok
      · simp only [pure, Except.pure] at hok
        cases hindexes : store.addKeys record with
        | error failure => simp [hindexes] at hok
        | ok indexes =>
            simp only [hindexes, Except.ok.injEq, Prod.mk.injEq] at hok
            exact ⟨record, indexes, rfl, hok.1.symm, hindexes, hok.2.symm⟩

/-- The inversion of `newRecord`: the record comes to stand at the `nextPosition` of a cluster of
its class, with the given fields. -/
theorem newRecord_ok {store : Store} {className : String} {fields : Fields} {record : Record}
    (hok : store.newRecord className fields = .ok record) :
    ∃ c, store.cluster? record.rid.cluster = some c ∧
      record.rid.cluster ∈ store.schema.clusters className ∧
      record = ⟨⟨record.rid.cluster, c.nextPosition⟩, className, fields⟩ := by
  unfold newRecord at hok
  split at hok
  · simp at hok
  next definition hfind =>
    split at hok
    · simp at hok
    · split at hok
      · simp at hok
      next id hid =>
        split at hok
        · simp at hok
        next c hcluster =>
          simp only [Except.ok.injEq] at hok
          subst hok
          refine ⟨c, hcluster, ?_, rfl⟩
          rw [Schema.clusters, hfind]
          exact List.mem_of_getElem? hid

/-- `updateCluster` changes the clusters of that number, and leaves the others alone. -/
theorem mem_updateCluster {store : Store} {id : ClusterId} {change : Cluster → Cluster}
    {d : Cluster} :
    d ∈ store.updateCluster id change ↔
      ∃ c ∈ store.clusters, d = if c.id = id then change c else c := by
  simp only [updateCluster, List.mem_map, beq_iff_eq, eq_comm (a := d)]

/-- A change of one cluster keeps a store sound, if it keeps number and class (`hid`, `hclass`), and
if its records have the places and the order of a sound store (`hplace`, `horder`). Insert and
delete are both of this kind. -/
theorem Sound.updateCluster {store : Store} (h : store.Sound) {id : ClusterId}
    {change : Cluster → Cluster} {indexes : List StoredIndex} {inserted : Nat}
    (hid : ∀ c, (change c).id = c.id) (hclass : ∀ c, (change c).className = c.className)
    (hplace : ∀ c ∈ store.clusters, c.id = id → ∀ r ∈ (change c).records,
      r.rid.cluster = c.id ∧ r.className = c.className ∧
        r.rid.position < (change c).nextPosition)
    (horder : ∀ c ∈ store.clusters, c.id = id →
      (change c).records.Pairwise fun r s => r.rid.position < s.rid.position) :
    { store with indexes, clusters := store.updateCluster id change, inserted }.Sound := by
  -- only the records and the next position of one cluster may change
  have hsame : ∀ c : Cluster, (if c.id = id then change c else c).id = c.id ∧
      (if c.id = id then change c else c).className = c.className := by
    intro c
    split
    · exact ⟨hid c, hclass c⟩
    · exact ⟨rfl, rfl⟩
  constructor
  case forest => exact h.forest
  case abstractEmpty => exact h.abstractEmpty
  case clusterOrder =>
    refine List.pairwise_map.mpr (h.clusterOrder.imp fun {c d} hlt => ?_)
    simp only [beq_iff_eq]
    rw [(hsame c).1, (hsame d).1]
    exact hlt
  case clusterFresh =>
    intro d hd
    obtain ⟨c, hc, rfl⟩ := mem_updateCluster.mp hd
    rw [(hsame c).1]
    exact h.clusterFresh c hc
  case owner =>
    intro d hd
    obtain ⟨c, hc, rfl⟩ := mem_updateCluster.mp hd
    rw [(hsame c).1, (hsame c).2]
    exact h.owner c hc
  case owned =>
    intro name other hother
    obtain ⟨c, hc, hcid, hcname⟩ := h.owned hother
    exact ⟨_, mem_updateCluster.mpr ⟨c, hc, rfl⟩, by rw [(hsame c).1, hcid],
      by rw [(hsame c).2, hcname]⟩
  case recordPlace =>
    intro d hd r hr
    obtain ⟨c, hc, rfl⟩ := mem_updateCluster.mp hd
    rw [(hsame c).1, (hsame c).2]
    split at hr
    next heq =>
      rw [if_pos heq]
      exact hplace c hc heq r hr
    next hne =>
      rw [if_neg hne]
      exact h.recordPlace c hc r hr
  case recordOrder =>
    intro d hd
    obtain ⟨c, hc, rfl⟩ := mem_updateCluster.mp hd
    split
    next heq => exact horder c hc heq
    next => exact h.recordOrder c hc

/-- `insert` keeps a store `Sound`: the record stands behind the others, at the position that was
next. -/
theorem Sound.insert {store after : Store} {className : String} {fields : Fields} {rid : Rid}
    (h : store.Sound) (hok : store.insert className fields = .ok (rid, after)) :
    after.Sound := by
  obtain ⟨record, indexes, hrecord, -, -, rfl⟩ := insert_ok hok
  obtain ⟨d, hd, hmem, hplace⟩ := newRecord_ok hrecord
  obtain ⟨hdmem, hdid⟩ := h.cluster?_eq_some_iff.mp hd
  have hposition : record.rid.position = d.nextPosition := by rw [hplace]
  have hclass : record.className = className := by rw [hplace]
  -- only the cluster of the record changes, and the record stands behind its others
  refine h.updateCluster (fun _ => rfl) (fun _ => rfl) ?_ ?_
  · intro c hc hcid r hr
    obtain rfl := h.cluster_eq hc hdmem (by rw [hcid, hdid])
    rcases List.mem_append.mp hr with hr | hr
    · obtain ⟨hcluster, hname, hlt⟩ := h.recordPlace c hc r hr
      exact ⟨hcluster, hname, Nat.lt_succ_of_lt hlt⟩
    · rw [List.mem_singleton.mp hr, hclass, hposition]
      exact ⟨hcid.symm, h.class_eq hmem (hcid ▸ h.owner c hc), Nat.lt_succ_self _⟩
  · intro c hc hcid
    obtain rfl := h.cluster_eq hc hdmem (by rw [hcid, hdid])
    refine List.pairwise_append.mpr ⟨h.recordOrder c hc, List.pairwise_singleton _ _, ?_⟩
    intro r hr s hs
    rw [List.mem_singleton.mp hs, hposition]
    exact (h.recordPlace c hc r hr).2.2

/-- What `delete` does. An identity without a live record leaves the store as it is. Otherwise the
keys of the record leave the indexes, and the record leaves its cluster. -/
theorem delete_eq (store : Store) (rid : Rid) :
    (store.load rid = none ∧ (store.delete rid).2 = store) ∨
    ∃ record, store.load rid = some record ∧
      (store.delete rid).2 = { store with
        indexes := store.removeKeys record
        clusters := store.updateCluster rid.cluster fun c =>
          { c with records := c.records.filter fun r => r.rid != rid } } := by
  unfold delete
  cases hload : store.load rid with
  | none => exact .inl ⟨rfl, rfl⟩
  | some record => exact .inr ⟨record, rfl, rfl⟩

/-- A delete keeps a store sound. Leaving out a record keeps the others in their order, and
`nextPosition` stays, so the position is not given again. -/
theorem Sound.delete {store : Store} (h : store.Sound) (rid : Rid) :
    (store.delete rid).2.Sound := by
  rcases delete_eq store rid with ⟨-, hdelete⟩ | ⟨record, -, hdelete⟩
  · rw [hdelete]
    exact h
  · rw [hdelete]
    refine h.updateCluster (fun _ => rfl) (fun _ => rfl) ?_ ?_
    · intro c hc _ r hr
      exact h.recordPlace c hc r (List.mem_of_mem_filter hr)
    · intro c hc _
      exact (h.recordOrder c hc).filter _

/-! ## Changes as data

A change that fails leaves what it has written before, so what a change makes of a store is defined
by its writes. `change_cases` says which stores these are, failed changes included. -/

/-- A change of a store, as data. Each constructor has the arguments of the change that
`Change.write` runs. -/
inductive Change where
  | createClass (name : String) (superclass : Option String) (clusters : Nat) (isAbstract : Bool)
  | linkProperty (className property target : String)
  | createIndex (name : String) (kind : IndexKind) (definition : IndexDefinition)
  | insert (className : String) (fields : Fields)
  | delete (rid : Rid)
  | failIndex (name : String) (failing : Bool)
  | failCluster (id : Option ClusterId)

/-- Only fields with `admits` are inserted. The other changes are all admitted. -/
def Change.Admitted (admits : Fields → Prop) : Change → Prop
  | .insert _ fields => admits fields
  | _ => True

/-- `Change.Admitted` can be decided where `admits` can be decided for fields. -/
instance Change.decidableAdmitted (admits : Fields → Prop) [DecidablePred admits] :
    DecidablePred (Change.Admitted admits) := fun change =>
  match change with
  | .insert _ fields => inferInstanceAs (Decidable (admits fields))
  | .createClass .. | .linkProperty .. | .createIndex .. | .delete _ | .failIndex ..
  | .failCluster _ => inferInstanceAs (Decidable True)

/-- A change at work on a store, write by write (`Writing`), so that its failure leaves what it has
written. -/
def Change.write : Change → Writing Unit
  | .createClass name superclass clusters isAbstract =>
      Writing.createClass name superclass clusters isAbstract
  | .linkProperty className property target => Writing.linkProperty className property target
  | .createIndex name kind definition => Writing.createIndex name kind definition
  | .insert className fields => do let _ ← Writing.insert className fields
  | .delete rid => modifyThe Store fun store => (store.delete rid).2
  | .failIndex name failing => modifyThe Store fun store => store.setIndexFailing name failing
  | .failCluster id => modifyThe Store fun store => store.setFailingCluster id

/-- The store after a change, also after one that fails: the state in which `Change.write` ends. -/
def change (store : Store) (change : Change) : Store := (change.write.run.run store).2

/-- The store after an insert: that of `Store.insert`, or `leftBehind` where it fails. -/
theorem change_insert (store : Store) (className : String) (fields : Fields) :
    store.change (.insert className fields) =
      match store.insert className fields with
      | .ok (_, after) => after
      | .error _ => store.leftBehind className fields := by
  rw [change, Change.write, Steps.run_bind, Writing.run_insert]
  cases store.insert className fields <;> rfl

/-- The inversion of `Store.change`. What holds of the store itself, and of all that the seven
changes make of it, holds of the store after the change. `hsame` covers the declarations that fail.
`hinsertFails` is the only failure that leaves something behind. -/
theorem change_cases {P : Store → Prop} {store : Store} (hsame : P store) {change : Change}
    (hcreateClass : ∀ {name superclass clusters isAbstract after},
      change = .createClass name superclass clusters isAbstract →
      store.createClass name superclass clusters isAbstract = .ok after → P after)
    (hlinkProperty : ∀ {className property target after},
      change = .linkProperty className property target →
      store.linkProperty className property target = .ok after → P after)
    (hcreateIndex : ∀ {name kind definition after},
      change = .createIndex name kind definition →
      store.createIndex name kind definition = .ok after → P after)
    (hinsert : ∀ {className fields rid after}, change = .insert className fields →
      store.insert className fields = .ok (rid, after) → P after)
    (hinsertFails : ∀ {className fields failure}, change = .insert className fields →
      store.insert className fields = .error failure → P (store.leftBehind className fields))
    (hdelete : ∀ {rid}, change = .delete rid → P (store.delete rid).2)
    (hfailIndex : ∀ {name failing}, change = .failIndex name failing →
      P (store.setIndexFailing name failing))
    (hfailCluster : ∀ {id}, change = .failCluster id → P (store.setFailingCluster id)) :
    P (store.change change) := by
  -- these changes are made as a whole or not at all; only an insert leaves something behind
  have hgetD {result : Except Failure Store} (hok : ∀ after, result = .ok after → P after) :
      P (store.allOrNothing result).2 := by
    cases result with
    | error failure => exact hsame
    | ok after => exact hok after rfl
  cases change with
  | createClass name superclass clusters isAbstract =>
      rw [Store.change, Change.write, Writing.run_createClass]
      exact hgetD fun after => hcreateClass rfl
  | linkProperty className property target =>
      rw [Store.change, Change.write, Writing.run_linkProperty]
      exact hgetD fun after => hlinkProperty rfl
  | createIndex name kind definition =>
      rw [Store.change, Change.write, Writing.run_createIndex]
      exact hgetD fun after => hcreateIndex rfl
  | insert className fields =>
      rw [change_insert]
      split
      next hok => exact hinsert rfl hok
      next hfail => exact hinsertFails rfl hfail
  | delete rid => exact hdelete rfl
  | failIndex name failing => exact hfailIndex rfl
  | failCluster id => exact hfailCluster rfl

/-- A change of a `Reachable` store reaches a store, also where the change fails. -/
theorem Reachable.change {admits : Fields → Prop} {store : Store} (h : Reachable admits store)
    {change : Change} (hadmitted : change.Admitted admits) :
    Reachable admits (store.change change) := by
  apply change_cases (P := Reachable admits) h
  case hcreateClass => exact fun _ hok => .createClass h hok
  case hlinkProperty => exact fun _ hok => .linkProperty h hok
  case hcreateIndex => exact fun _ hok => .createIndex h hok
  case hinsert =>
    rintro _ _ _ _ rfl hok
    exact .insert h hadmitted hok
  case hinsertFails =>
    rintro _ _ _ rfl hfail
    exact .insertFails h hadmitted hfail
  case hdelete => exact fun _ => .delete _ h
  case hfailIndex => exact fun _ => .failIndex _ _ h
  case hfailCluster => exact fun _ => .failCluster _ h

/-- What holds of the empty store (`hempty`) and lasts through every admitted change (`hchange`)
holds of all reachable stores. -/
theorem Reachable.change_induction {admits : Fields → Prop} {P : Store → Prop} {store : Store}
    (h : Reachable admits store) (hempty : P .empty)
    (hchange : ∀ store change, Reachable admits store → change.Admitted admits → P store →
      P (store.change change)) : P store := by
  -- the changes that failed are not among the steps, apart from an insert
  induction h with
  | empty => exact hempty
  | @createClass store after name superclass clusters isAbstract hreach hok ih =>
      have hafter :=
        hchange store (.createClass name superclass clusters isAbstract) hreach trivial ih
      rwa [Store.change, Change.write, Writing.run_createClass, hok] at hafter
  | @linkProperty store after className property target hreach hok ih =>
      have hafter := hchange store (.linkProperty className property target) hreach trivial ih
      rwa [Store.change, Change.write, Writing.run_linkProperty, hok] at hafter
  | @createIndex store after name kind definition hreach hok ih =>
      have hafter := hchange store (.createIndex name kind definition) hreach trivial ih
      rwa [Store.change, Change.write, Writing.run_createIndex, hok] at hafter
  | @insert store after className fields rid hreach hfields hok ih =>
      have hafter := hchange store (.insert className fields) hreach hfields ih
      rwa [change_insert, hok] at hafter
  | @insertFails store className fields failure hreach hfields hfail ih =>
      have hafter := hchange store (.insert className fields) hreach hfields ih
      rwa [change_insert, hfail] at hafter
  | delete rid hreach ih => exact hchange _ (.delete rid) hreach trivial ih
  | failIndex name failing hreach ih => exact hchange _ (.failIndex name failing) hreach trivial ih
  | failCluster id hreach ih => exact hchange _ (.failCluster id) hreach trivial ih

/-- A change keeps a store sound, also where it fails: `leftBehind_spec` says that an insert that
fails changes indexes alone. -/
theorem Sound.change {store : Store} (h : store.Sound) (change : Change) :
    (store.change change).Sound := by
  -- indexes and marks do not matter to what is sound
  apply change_cases (P := Sound) h
  case hcreateClass => exact fun _ hok => h.createClass hok
  case hlinkProperty => exact fun _ hok => h.linkProperty hok
  case hcreateIndex =>
    rintro _ _ _ _ - hok
    obtain ⟨index, -, -, rfl⟩ := createIndex_ok hok
    exact h.of_eq rfl rfl rfl
  case hinsert => exact fun _ hok => h.insert hok
  case hinsertFails =>
    rintro className fields _ - -
    obtain ⟨indexes, heq, -⟩ := store.leftBehind_spec className fields
    rw [heq]
    exact h.of_eq rfl rfl rfl
  case hdelete => exact fun _ => h.delete _
  case hfailIndex => exact fun _ => h.of_eq rfl rfl rfl
  case hfailCluster => exact fun _ => h.of_eq rfl rfl rfl

/-- Every `Reachable` store is `Sound`. -/
theorem Reachable.sound {admits : Fields → Prop} {store : Store}
    (h : Reachable admits store) : store.Sound :=
  h.change_induction sound_empty fun _ change _ _ hbefore => hbefore.change change

/-! ## Live records

Which records are live after a change is stated for each change as an equivalence. With it a
property of the inserted fields carries over to all live records of a reachable store. -/

/-- After `insert` the new record is `Live`, and so are the records of before. -/
theorem Sound.live_insert {store after : Store} {className : String} {fields : Fields}
    {record : Record} {indexes : List StoredIndex} (h : store.Sound)
    (hrecord : store.newRecord className fields = .ok record)
    (hafter : after = { store with
      indexes
      clusters := store.updateCluster record.rid.cluster fun c =>
        { c with records := c.records ++ [record], nextPosition := c.nextPosition + 1 }
      inserted := store.inserted + 1 }) {r : Record} :
    after.Live r ↔ store.Live r ∨ r = record := by
  obtain ⟨d, hd, -, -⟩ := newRecord_ok hrecord
  obtain ⟨hdmem, hdid⟩ := h.cluster?_eq_some_iff.mp hd
  subst hafter
  -- only the records of one cluster differ, so a record is looked for in its own cluster
  constructor
  · rintro ⟨e, he, hr⟩
    obtain ⟨c, hc, rfl⟩ := mem_updateCluster.mp he
    split at hr
    · rcases List.mem_append.mp hr with hr | hr
      · exact .inl ⟨c, hc, hr⟩
      · exact .inr (List.mem_singleton.mp hr)
    · exact .inl ⟨c, hc, hr⟩
  · rintro (⟨c, hc, hr⟩ | rfl)
    · refine ⟨_, mem_updateCluster.mpr ⟨c, hc, rfl⟩, ?_⟩
      split
      · exact List.mem_append_left _ hr
      · exact hr
    · refine ⟨_, mem_updateCluster.mpr ⟨d, hdmem, rfl⟩, ?_⟩
      rw [if_pos hdid]
      exact List.mem_append_right _ (List.mem_singleton_self _)

/-- After `delete` the live records are those of before with another identity. -/
theorem Sound.live_delete {store : Store} {rid : Rid} (h : store.Sound) {r : Record} :
    (store.delete rid).2.Live r ↔ store.Live r ∧ r.rid ≠ rid := by
  -- a record that is not there is not deleted
  rcases delete_eq store rid with ⟨hload, hdelete⟩ | ⟨record, -, hdelete⟩
  · rw [hdelete]
    refine ⟨fun hr => ⟨hr, fun hrid => ?_⟩, And.left⟩
    rw [h.load_eq_some_iff.mpr ⟨hr, hrid⟩] at hload
    simp at hload
  · rw [hdelete]
    constructor
    · rintro ⟨e, he, hr⟩
      obtain ⟨c, hc, rfl⟩ := mem_updateCluster.mp he
      split at hr
      next =>
        obtain ⟨hr, hne⟩ := List.mem_filter.mp hr
        exact ⟨⟨c, hc, hr⟩, bne_iff_ne.mp hne⟩
      next hne =>
        refine ⟨⟨c, hc, hr⟩, ?_⟩
        rintro rfl
        exact hne (h.recordPlace c hc r hr).1.symm
    · rintro ⟨⟨c, hc, hr⟩, hne⟩
      refine ⟨_, mem_updateCluster.mpr ⟨c, hc, rfl⟩, ?_⟩
      split
      · exact List.mem_filter.mpr ⟨hr, bne_iff_ne.mpr hne⟩
      · exact hr

/-- `createClass` changes no live record, as the new clusters are empty. -/
theorem live_createClass {store after : Store} {name : String} {superclass : Option String}
    {clusters : Nat} {isAbstract : Bool}
    (hok : store.createClass name superclass clusters isAbstract = .ok after) {r : Record} :
    after.Live r ↔ store.Live r := by
  obtain ⟨grown, ids, count, -, -, -, -, -, rfl⟩ := createClass_ok hok
  constructor
  · rintro ⟨c, hc, hr⟩
    rcases List.mem_append.mp hc with hc | hc
    · exact ⟨c, hc, hr⟩
    · obtain ⟨id, -, rfl⟩ := List.mem_map.mp hc
      simp at hr
  · rintro ⟨c, hc, hr⟩
    exact ⟨c, List.mem_append_left _ hc, hr⟩

/-- A live record after a change was live before it, or has fields that were inserted, which
`admits` allows. -/
theorem Sound.admits_change {admits : Fields → Prop} {store : Store} (h : store.Sound)
    (hlive : ∀ r, store.Live r → admits r.fields) {change : Change}
    (hadmitted : change.Admitted admits) :
    ∀ r, (store.change change).Live r → admits r.fields := by
  -- only an insert makes a record live
  apply change_cases (P := fun after => ∀ r, after.Live r → admits r.fields) hlive
  case hcreateClass => exact fun _ hok r hr => hlive r ((live_createClass hok).mp hr)
  case hlinkProperty =>
    rintro _ _ _ _ - hok
    obtain rfl := linkProperty_ok hok
    exact hlive
  case hcreateIndex =>
    rintro _ _ _ _ - hok
    obtain ⟨index, -, -, rfl⟩ := createIndex_ok hok
    exact hlive
  case hinsert =>
    rintro _ _ _ _ rfl hok r hr
    obtain ⟨record, indexes, hrecord, -, -, hafter⟩ := insert_ok hok
    rcases (h.live_insert hrecord hafter).mp hr with hr | rfl
    · exact hlive r hr
    · obtain ⟨c, -, -, hplace⟩ := newRecord_ok hrecord
      rw [hplace]
      exact hadmitted
  case hinsertFails =>
    rintro className fields _ - -
    obtain ⟨indexes, heq, -⟩ := store.leftBehind_spec className fields
    rw [heq]
    exact hlive
  case hdelete => exact fun _ r hr => hlive r (h.live_delete.mp hr).1
  case hfailIndex => exact fun _ => hlive
  case hfailCluster => exact fun _ => hlive

/-- Live records of a reachable store have fields that `admits` allows. -/
theorem Reachable.admits_of_live {admits : Fields → Prop} {store : Store}
    (h : Reachable admits store) {r : Record} (hr : store.Live r) : admits r.fields := by
  refine h.change_induction (P := fun store => ∀ r, store.Live r → admits r.fields) ?_ ?_ r hr
  · rintro r ⟨c, hc, -⟩
    simp [Store.empty] at hc
  · exact fun store change hreach hadmitted hlive => hreach.sound.admits_change hlive hadmitted

/-! ## Sequences of changes

A concrete store is given by the list of its changes, and is reachable if these are admitted. -/

/-- The store that some `changes` make of the empty one. A change that fails counts with what it
leaves behind. -/
def ofChanges (changes : List Change) : Store := changes.foldl change .empty

/-- The store that `ofChanges` makes with admitted changes is `Reachable`, so what is proved of
reachable stores holds of it. -/
theorem reachable_ofChanges {admits : Fields → Prop} {changes : List Change}
    (hadmitted : ∀ change ∈ changes, change.Admitted admits) :
    Reachable admits (ofChanges changes) :=
  List.foldlRecOn changes change .empty fun _ h change hchange => h.change (hadmitted change hchange)

end Store

/-! ## Whatever a store can meet with

The program hands out its indexes, and whoever holds one can write to it between changes as well.
What is to hold of a store even then is stated for `ofAccesses`. -/

/-- A write to an index by someone who holds it, past the records of the store: an entry is put,
removed, or all are. -/
inductive IndexWrite where
  | put (key : Key) (rid : Rid)
  | remove (key : Key) (rid : Rid)
  | clear

/-- The index after a write to it. A key that `put` refuses leaves it as it is. -/
def StoredIndex.write (index : StoredIndex) : IndexWrite → StoredIndex
  | .put key rid => (index.put key rid).toOption.getD index
  | .remove key rid => index.remove key rid
  | .clear => index.clear

namespace Store

/-- What a store can meet with: a `change`, or a write to the index of a name. -/
inductive Access where
  | change (made : Change)
  | write (name : String) (write : IndexWrite)

/-- The store after an `Access`, also after a change that fails. -/
def access (store : Store) : Access → Store
  | .change made => store.change made
  | .write name write => store.updateIndex name fun index => index.write write

/-- The store after the empty one has met with all the `accesses`. -/
def ofAccesses (accesses : List Access) : Store := accesses.foldl access .empty

/-- A store stays sound through an access: a write to an index is a case of `Sound.of_eq`. -/
theorem Sound.access {store : Store} (h : store.Sound) (access : Access) :
    (store.access access).Sound := by
  cases access with
  | change made => exact h.change made
  | write name write => exact h.of_eq rfl rfl rfl

/-- After any accesses the store is sound, as `Sound` does not speak of indexes. -/
theorem sound_ofAccesses (accesses : List Access) : (ofAccesses accesses).Sound :=
  List.foldlRecOn accesses access sound_empty fun _ h access _ => h.access access

end Store

end RecordQuery
