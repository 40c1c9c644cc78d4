import RecordQuery.Store.Basic

/-!
# `RecordQuery.Store.Write`: changes of the store

Every change either gives the changed store or a failure; what a failed one leaves of the store is
another matter (`RecordQuery.Store.InPlace`).
Indexes follow the records: an insert adds the keys of the new record to every index of its
class, a delete removes them, and an index declared late is filled from the live records.
-/

set_option autoImplicit false

namespace RecordQuery

namespace Store

/-- Declares a class with the given number of clusters, one at least; an abstract class gets
none. Two limits of a machine are left out: the clusters of a store may be more than a counter of 32
bits can number, and there is memory for any number of them. -/
def createClass (store : Store) (name : String) (superclass : Option String) (clusters : Nat)
    (isAbstract : Bool) : Except Failure Store :=
  if store.schema.declares name then .error (.invalid .classExists)
  else
    let count := if isAbstract then 0 else max clusters 1
    let ids := (List.range count).map (store.nextCluster + ·)
    let definition : ClassDef := ⟨name, superclass, [], ids, isAbstract, []⟩
    let created (schema : Schema) : Store :=
      { store with
        schema := schema ++ [definition]
        clusters := store.clusters ++ ids.map fun id => ⟨id, name, [], 0⟩
        nextCluster := store.nextCluster + count }
    match superclass with
    | none => .ok (created store.schema)
    | some parent =>
        if store.schema.declares parent then
          .ok (created (store.schema.update parent fun c =>
            { c with subclasses := c.subclasses ++ [name] }))
        else .error (.query (.unknownClass parent))

/-- The links of a class with one property set to lead to a class. -/
def setLink (links : List (String × String)) (property target : String) :
    List (String × String) :=
  links.filter (fun (p, _) => p != property) ++ [(property, target)]

/-- Declares a property of a class to be a link to records of another class. -/
def linkProperty (store : Store) (className property target : String) : Except Failure Store :=
  if !store.schema.declares target then .error (.query (.unknownClass target))
  else if !store.schema.declares className then .error (.query (.unknownClass className))
  else .ok { store with schema := store.schema.update className fun c =>
    { c with links := setLink c.links property target } }

/-- The live records of the class and its subclasses, in order of identity. -/
def recordsUnder (store : Store) (className : String) : List Record :=
  (store.clusters.filter fun c =>
    store.schema.isSubclassOf c.className className).flatMap (·.records)

/-- Declares an index and fills it from the live records. -/
def createIndex (store : Store) (name : String) (kind : IndexKind)
    (definition : IndexDefinition) : Except Failure Store :=
  if !store.schema.declares definition.className then
    .error (.query (.unknownClass definition.className))
  else if (store.index? name).isSome then .error (.invalid .indexExists)
  else do
    let index ← (store.recordsUnder definition.className).foldlM
      (fun index record => index.putAll (index.keysFor record) record.rid)
      (StoredIndex.empty name kind definition)
    return { store with indexes := store.indexes ++ [index] }

/-- The indexes after the keys of a record are added to those that cover its class. -/
def addKeys (store : Store) (record : Record) : Except Failure (List StoredIndex) :=
  let ancestors := store.schema.ancestors record.className
  store.indexes.mapM fun index =>
    if ancestors.contains index.definition.className then
      index.putAll (index.keysFor record) record.rid
    else .ok index

/-- The indexes after the keys of a record are removed from those that cover its class. -/
def removeKeys (store : Store) (record : Record) : List StoredIndex :=
  let ancestors := store.schema.ancestors record.className
  store.indexes.map fun index =>
    if ancestors.contains index.definition.className then
      (index.keysFor record).foldl (fun index key => index.remove key record.rid) index
    else index

/-- The clusters with one of them changed. -/
def updateCluster (store : Store) (id : ClusterId) (change : Cluster → Cluster) :
    List Cluster :=
  store.clusters.map fun c => if c.id == id then change c else c

/-- The record that an insert into the class would make. -/
def newRecord (store : Store) (className : String) (fields : Fields) : Except Failure Record :=
  match store.schema.find? className with
  | none => .error (.query (.unknownClass className))
  | some definition =>
      if definition.isAbstract then .error (.invalid .abstractClass)
      else
        match definition.clusters[store.inserted % definition.clusters.length]? with
        | none => .error (.invalid .abstractClass)
        | some id =>
            match store.cluster? id with
            | none => .error (.corruption .clusterMissing)
            | some c => .ok ⟨⟨id, c.nextPosition⟩, className, fields⟩

/-- Inserts a record. The clusters of a class are filled in turn. A key that a unique index
holds for another record stops the insert. -/
def insert (store : Store) (className : String) (fields : Fields) :
    Except Failure (Rid × Store) := do
  let record ← store.newRecord className fields
  let collides := (store.indexesOf className).any fun index =>
    (index.keysFor record).any fun key => index.conflicts key record.rid
  if collides then throw (.invalid .duplicateKey)
  let indexes ← store.addKeys record
  return (record.rid,
    { store with
      indexes
      clusters := store.updateCluster record.rid.cluster fun c =>
        { c with records := c.records ++ [record], nextPosition := c.nextPosition + 1 }
      inserted := store.inserted + 1 })

/-- Deletes a record and its index entries, and says whether there was a live one. -/
def delete (store : Store) (rid : Rid) : Bool × Store :=
  match store.load rid with
  | none => (false, store)
  | some record =>
      (true,
        { store with
          indexes := store.removeKeys record
          clusters := store.updateCluster rid.cluster fun c =>
            { c with records := c.records.filter fun r => r.rid != rid } })

/-- The store with one index changed. -/
def updateIndex (store : Store) (name : String) (change : StoredIndex → StoredIndex) : Store :=
  { store with indexes := store.indexes.map fun index =>
      if index.name == name then change index else index }

/-- Switches reads of an index to failing, or back. -/
def setIndexFailing (store : Store) (name : String) (failing : Bool) : Store :=
  store.updateIndex name fun index => { index with failing }

/-- Switches the scans of one cluster to failing; `none` switches it off. -/
def setFailingCluster (store : Store) (id : Option ClusterId) : Store :=
  { store with failingCluster := id }

end Store

end RecordQuery
