import RecordQuery.Store.Write

/-!
# `RecordQuery.Store.InPlace`: changes write by write

A change works on the store in place, one write after the other, and a failure leaves the store
as the writes before it have made it. Declarations check everything before their first write. A
new index is filled before the store gets it. An insert looks for collisions in all indexes
before it adds the first key, and adding a key looks again: if it is refused then, the keys that
were added before it stay.
-/

set_option autoImplicit false

namespace RecordQuery

/-- Adds the entries of several keys of one record, one after the other. A key that is refused
ends it, and the entries before that one stay. -/
def StoredIndex.putEach (index : StoredIndex) (rid : Rid) :
    List Key → Except Failure Unit × StoredIndex
  | [] => (.ok (), index)
  | key :: keys =>
      match index.put key rid with
      | .error failure => (.error failure, index)
      | .ok next => next.putEach rid keys

/-- Adds the keys of a record to the indexes that cover its class, one index after the other.
A key that is refused ends it, and the entries before that one stay. -/
def StoredIndex.putKeys (ancestors : List String) (record : Record) :
    List StoredIndex → Except Failure Unit × List StoredIndex
  | [] => (.ok (), [])
  | index :: rest =>
      if ancestors.contains index.definition.className then
        match index.putEach record.rid (index.keysFor record) with
        | (.error failure, written) => (.error failure, written :: rest)
        | (.ok (), written) =>
            let (result, others) := putKeys ancestors record rest
            (result, written :: others)
      else
        let (result, others) := putKeys ancestors record rest
        (result, index :: others)

/-- Whether an index of the class holds a key of a new record for another record. -/
def Store.collides (store : Store) (className : String) (record : Record) : Bool :=
  (store.indexesOf className).any fun index =>
    (index.keysFor record).any fun key => index.conflicts key record.rid

/-- A change at work on a store. A failure leaves the store as the writes before it have made
it. -/
abbrev Writing := ExceptT Failure (StateM Store)

namespace Writing

/-- Adds a cluster for a class, and gives its number. -/
def addCluster (className : String) : Writing ClusterId := do
  let store ← getThe Store
  let cluster : Cluster := ⟨store.nextCluster, className, [], 0⟩
  set { store with
    clusters := store.clusters ++ [cluster]
    nextCluster := store.nextCluster + 1 }
  return store.nextCluster

/-- Adds clusters for a class, and gives their numbers. -/
def addClusters (className : String) : Nat → Writing (List ClusterId)
  | 0 => return []
  | count + 1 => do
      let id ← addCluster className
      let ids ← addClusters className count
      return id :: ids

/-- Notes a class below its superclass, which has to be declared. -/
def enterBelow (name : String) : Option String → Writing Unit
  | none => return ()
  | some parent => do
      let store ← getThe Store
      if store.schema.declares parent then
        set { store with schema := store.schema.update parent fun c =>
          { c with subclasses := c.subclasses ++ [name] } }
      else throw (.query (.unknownClass parent))

/-- Declares a class with the given number of clusters, one at least; an abstract class gets
none. The superclass knows of it before it has its clusters.

The number of clusters is the caller's, and any number will do here. What a machine does with too
large a number is left out: it may panic when it makes room for the list of new clusters, which it
does after `enterBelow` has written the superclass, or when the counter `Store.nextCluster` passes
`2 ^ 32`. Neither is a call that fails with a `Failure`, so nothing is said of the store that it
leaves. -/
def createClass (name : String) (superclass : Option String) (clusters : Nat)
    (isAbstract : Bool) : Writing Unit := do
  let store ← getThe Store
  if store.schema.declares name then throw (.invalid .classExists)
  else
    enterBelow name superclass
    let ids ← addClusters name (if isAbstract then 0 else max clusters 1)
    modifyThe Store fun store =>
      { store with schema := store.schema ++ [⟨name, superclass, [], ids, isAbstract, []⟩] }

/-- Declares a property of a class to be a link to records of another class. -/
def linkProperty (className property target : String) : Writing Unit := do
  let store ← getThe Store
  if !store.schema.declares target then throw (.query (.unknownClass target))
  else if !store.schema.declares className then throw (.query (.unknownClass className))
  else
    set { store with schema := store.schema.update className fun c =>
      { c with links := Store.setLink c.links property target } }

/-- Fills a new index from some records. The store does not have the index yet, so what a
failure leaves of it is lost. -/
def fillIndex (index : StoredIndex) : List Record → Writing StoredIndex
  | [] => return index
  | record :: records =>
      match index.putEach record.rid (index.keysFor record) with
      | (.error failure, _) => throw failure
      | (.ok (), filled) => fillIndex filled records

/-- Declares an index, which is filled from the live records first. -/
def createIndex (name : String) (kind : IndexKind) (definition : IndexDefinition) :
    Writing Unit := do
  let store ← getThe Store
  if !store.schema.declares definition.className then
    throw (.query (.unknownClass definition.className))
  else if (store.index? name).isSome then throw (.invalid .indexExists)
  else
    let index ← fillIndex (.empty name kind definition)
      (store.recordsUnder definition.className)
    modifyThe Store fun store => { store with indexes := store.indexes ++ [index] }

/-- Adds the keys of a record to the indexes of its class. -/
def addKeys (record : Record) : Writing Unit := do
  let store ← getThe Store
  let written :=
    StoredIndex.putKeys (store.schema.ancestors record.className) record store.indexes
  set { store with indexes := written.2 }
  match written.1 with
  | .error failure => throw failure
  | .ok () => return ()

/-- Puts a record into its cluster. -/
def addRecord (record : Record) : Writing Unit :=
  modifyThe Store fun store =>
    { store with
      clusters := store.updateCluster record.rid.cluster fun c =>
        { c with records := c.records ++ [record], nextPosition := c.nextPosition + 1 }
      inserted := store.inserted + 1 }

/-- Inserts a record: its keys first, and then the record. -/
def insert (className : String) (fields : Fields) : Writing Rid := do
  let store ← getThe Store
  match store.newRecord className fields with
  | .error failure => throw failure
  | .ok record =>
      if store.collides className record then throw (.invalid .duplicateKey)
      else
        addKeys record
        addRecord record
        return record.rid

end Writing

end RecordQuery
