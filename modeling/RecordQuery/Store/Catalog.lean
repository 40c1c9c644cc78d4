import RecordQuery.Store.Basic

/-!
# `RecordQuery.Store.Catalog`: indexes by the fields they serve

An index covers a set of fields when they are, in some order, its leading fields. For a field
chain the catalog builds proxies: for every hop but the last one the best index on the hop's
field, for the last hop one index of each family.
-/

set_option autoImplicit false

namespace RecordQuery

/-- The order in which an index gives its entries when it is walked. -/
inductive WalkOrder where
  | ascending
  | descending
  /-- In no order. -/
  | unordered
deriving DecidableEq, Repr

/-- Ordered indexes are walked in ascending key order. -/
def Index.walkOrder (index : Index) : WalkOrder :=
  if index.isOrdered then .ascending else .unordered

namespace Store

/-- Whether the two lists, the second one without repetitions, have the same members. -/
def sameMembers (declared wanted : List String) : Bool :=
  declared.all wanted.contains && wanted.all declared.contains

/-- Whether no name occurs twice. -/
def distinct : List String → Bool
  | [] => true
  | name :: names => !names.contains name && distinct names

/-- The indexes of a class whose leading fields are exactly the given ones, in any order. A
repeated field, or none at all, is covered by no index. -/
def indexesCovering (store : Store) (className : String) (fields : List String) :
    List StoredIndex :=
  if fields.isEmpty || !distinct fields then []
  else (store.indexesOf className).filter fun index =>
    fields.length ≤ index.definition.fields.length &&
      sameMembers (index.definition.fields.take fields.length) fields

/-- Whether some index covers the fields. -/
def covers (store : Store) (className : String) (fields : List String) : Bool :=
  !(store.indexesCovering className fields).isEmpty

/-- The indexes of a class that start with the property. -/
def indexesForProperty (store : Store) (className property : String) : List StoredIndex :=
  store.indexesCovering className [property]

/-- The usable index of the highest rank for a hop, the first one among equals. -/
def bestHop? (candidates : List StoredIndex) : Option StoredIndex :=
  candidates.foldl (fun best index =>
    let priority := (Index.stored index).hopPriority
    if priority ≤ 0 then best
    else match best with
      | none => some index
      | some current =>
          if (Index.stored current).hopPriority < priority then some index else best) none

/-- The best index of every hop but the last one, and the class that the last hop starts
from. -/
def hopIndexes? (store : Store) (className : String) :
    List String → Option (List StoredIndex × String)
  | [] => some ([], className)
  | property :: rest => do
      let index ← bestHop? (store.indexesForProperty className property)
      let next ← store.schema.linkedClass? className property
      let (indexes, last) ← hopIndexes? store next rest
      return (index :: indexes, last)

/-- The indexes without those of a family that occurred before. -/
def firstPerFamily (seen : List IndexFamily) : List StoredIndex → List StoredIndex
  | [] => []
  | index :: rest =>
      if seen.contains index.kind.family then firstPerFamily seen rest
      else index :: firstPerFamily (index.kind.family :: seen) rest

/-- The indexes for the last hop: of each family the one with the fewest fields. -/
def lastHopIndexes (store : Store) (className property : String) : List StoredIndex :=
  firstPerFamily [] (stableSort
    (fun a b => Ord.compare a.definition.paramCount b.definition.paramCount)
    (store.indexesForProperty className property))

/-- The proxies for a field chain; none when a hop has no usable index. -/
def chainProxies (store : Store) (className : String) (chain : FieldChain) : List ChainProxy :=
  if !chain.isLong then []
  else match store.hopIndexes? className chain.beforeLast with
    | none => []
    | some (hops, lastClass) =>
        (store.lastHopIndexes lastClass chain.last).filterMap fun last =>
          (ChainProxy.ofHops (hops ++ [last])).toOption

end Store

end RecordQuery
