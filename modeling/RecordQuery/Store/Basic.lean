import RecordQuery.Index.Chain
import RecordQuery.Store.Schema

/-!
# `RecordQuery.Store.Basic`: the store and what can be read from it

A store holds classes, the clusters with their records, and the indexes. A scan of a cluster
gives its records in order of identity; the cluster that is switched to failing gives the
first half of them and then a failure.
-/

set_option autoImplicit false

namespace RecordQuery

/-- A cluster and its live records. -/
structure Cluster where
  /-- The number of the cluster. -/
  id : ClusterId
  /-- The class whose records it holds. -/
  className : String
  /-- The live records, in ascending order of position. -/
  records : List Record
  /-- The position of the next record; positions are never used again. -/
  nextPosition : Nat
deriving Repr

/-- Classes, clusters with their records, and indexes. -/
structure Store where
  /-- The classes. -/
  schema : Schema
  /-- The clusters, in ascending order of number. -/
  clusters : List Cluster
  /-- The number of the next cluster. A program counts clusters with 32 bits, which is left out: here
  the counter never overflows. -/
  nextCluster : ClusterId
  /-- The number of records inserted so far; it spreads records over the clusters. -/
  inserted : Nat
  /-- The indexes, in order of declaration. -/
  indexes : List StoredIndex
  /-- The cluster whose scans fail, if one is switched to failing. -/
  failingCluster : Option ClusterId
deriving Repr

/-- The direction of a scan. -/
inductive ScanDirection where
  | ascending
  | descending
deriving DecidableEq, Repr

/-- What a scan gives at one place: a record, or the failure that ends its usefulness. -/
abbrev ScanItem := Except Failure Record

namespace Store

/-- The store without classes; clusters are numbered from 1. -/
def empty : Store := ⟨[], [], 1, 0, [], none⟩

/-- The cluster of a number. -/
def cluster? (store : Store) (id : ClusterId) : Option Cluster :=
  store.clusters.find? fun c => c.id == id

/-- The numbers of all clusters, ascending. -/
def clusterIds (store : Store) : List ClusterId := store.clusters.map (·.id)

/-- The live record of an identity. -/
def load (store : Store) (rid : Rid) : Option Record :=
  (store.cluster? rid.cluster).bind fun c => c.records.find? fun r => r.rid == rid

/-- The index of a name. -/
def index? (store : Store) (name : String) : Option StoredIndex :=
  store.indexes.find? fun index => index.name == name

/-- The indexes declared on the class or above it, in order of declaration. -/
def indexesOf (store : Store) (className : String) : List StoredIndex :=
  let ancestors := store.schema.ancestors className
  store.indexes.filter fun index => ancestors.contains index.definition.className

/-- The number of live records of a cluster. -/
def clusterCount (store : Store) (id : ClusterId) : Except Failure Nat :=
  match store.cluster? id with
  | some c => .ok c.records.length
  | none => .error (.query (.unknownCluster id))

/-- The number of live records of several clusters; a repeated cluster counts again. -/
def count (store : Store) (ids : List ClusterId) : Except Failure Nat :=
  ids.foldlM (fun total id => (store.clusterCount id).map (total + ·)) 0

/-- The live records of a cluster in the given range and direction. -/
def scanCluster (store : Store) (id : ClusterId) (direction : ScanDirection)
    (range : RidRange) : Except Failure (List ScanItem) :=
  match store.cluster? id with
  | none => .error (.query (.unknownCluster id))
  | some c =>
      let records := c.records.filter fun r => range.contains r.rid
      let directed := match direction with
        | .ascending => records
        | .descending => records.reverse
      if store.failingCluster == some id then
        .ok ((directed.take (directed.length / 2)).map .ok ++ [.error (.corruption .scanFailed)])
      else .ok (directed.map .ok)

/-- The clusters that a scan visits, in the order in which it visits them: those that the
range touches, each once. -/
def scanOrder (ids : List ClusterId) (direction : ScanDirection) (range : RidRange) :
    List ClusterId :=
  let ordered := sortDistinct Ord.compare (ids.filter range.touches)
  match direction with
  | .ascending => ordered
  | .descending => ordered.reverse

/-- The live records of several clusters, one cluster after the other, so that identities
follow the direction. -/
def scanClusters (store : Store) (ids : List ClusterId) (direction : ScanDirection)
    (range : RidRange) : Except Failure (List ScanItem) := do
  let parts ← (scanOrder ids direction range).mapM fun id => store.scanCluster id direction range
  return parts.flatten

end Store

end RecordQuery
