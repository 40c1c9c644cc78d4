import RecordQuery.Proofs.Plans

/-!
# `RecordQuery.Proofs.Hierarchy`: classes, clusters and records agree

The hierarchy of the classes is kept twice, as superclasses and as lists of subclasses, and a record
carries it twice, as its class and as its cluster. Index plans check the class, scans read the
clusters. The functions that walk along the hierarchy have fuel, so that they end has to be proved:
`Schema.Climbs`, `Schema.LooksFor` and `Schema.Descends` are their runs as relations, without fuel.

`Store.Sound` is the invariant of the changes, from `Reachable`. Here it is unfolded into what the
rest of a query relies on. The theorem:

* `Store.hierarchy_ofChanges`: whatever changes made a store, all of these agree, and the walks
  along the hierarchy end.
-/

set_option autoImplicit false

namespace RecordQuery

/-- The hierarchy of the classes of a store can be walked, and its encodings agree: `superclass`
with `subclasses`, and the classes of records with their clusters. -/
structure Store.Hierarchy (store : Store) : Prop where
  /-- The classes are a `Forest`, so `superclass` and `subclasses` say the same. -/
  forest : store.schema.Forest
  /-- The walk upwards ends, and `ancestors` is what it visits. -/
  climbs : ∀ name, store.schema.Climbs name (store.schema.ancestors name)
  /-- The search upwards ends, and `isSubclassOf` is its answer. -/
  looksFor : ∀ name ancestor,
    store.schema.LooksFor ancestor name (store.schema.isSubclassOf name ancestor)
  /-- The walk downwards ends, and `tree` is what it visits. -/
  descends : ∀ name, store.schema.Descends [name] (store.schema.tree name)
  /-- The walk downwards visits no class twice. -/
  nodup_tree : ∀ name, (store.schema.tree name).Nodup
  /-- The walk downwards visits the classes from which the search upwards finds the start. -/
  mem_tree : ∀ name other,
    other ∈ store.schema.tree name ↔ store.schema.isSubclassOf other name = true
  /-- A cluster belongs to one class. -/
  clusters : ∀ {name other : String} {id : ClusterId},
    id ∈ store.schema.clusters name → id ∈ store.schema.clusters other → name = other
  /-- A polymorphic target reads the clusters of the records that pass its `ClassFilter`. -/
  polymorphic : ∀ r, store.Live r → ∀ target,
    (r.rid.cluster ∈ store.schema.targetClusters target true ↔
      ClassFilter.accepts ⟨target, true⟩ store.schema r.className = true)
  /-- A target that is not polymorphic reads the clusters of the records of its class. -/
  monomorphic : ∀ r, store.Live r → ∀ target,
    (r.rid.cluster ∈ store.schema.targetClusters target false ↔ r.className = target)

/-- The classes of a sound store agree with its clusters and records. Each field is a lemma on
`Schema.Forest` or on `Store.Sound`. -/
theorem Store.Sound.hierarchy {store : Store} (h : store.Sound) : store.Hierarchy where
  forest := h.forest
  climbs := h.forest.climbs_ancestors
  looksFor := h.forest.looksFor_isSubclassOf
  descends := h.forest.descends_tree
  nodup_tree := h.forest.nodup_tree
  mem_tree name other := by rw [h.forest.mem_tree_iff, h.forest.isSubclassOf_iff]
  clusters hname hother := h.class_eq hname hother
  polymorphic _ hr _ := h.mem_targetClusters_iff hr
  monomorphic r hr target := by
    rw [h.mem_targetClusters_iff hr]
    simp [ClassFilter.accepts]

/-- Whatever changes made a store, failing ones included, its classes are a forest on which every
walk ends, and they agree with its clusters and records, `Store.Hierarchy`. -/
theorem Store.hierarchy_ofChanges (changes : List Change) :
    (Store.ofChanges changes).Hierarchy :=
  have hreach : (Store.ofChanges changes).Reachable fun _ => True :=
    Store.reachable_ofChanges fun change _ => by cases change <;> trivial
  hreach.sound.hierarchy

end RecordQuery
