import RecordQuery.Condition.FieldChain
import RecordQuery.Index.Stored

/-!
# `RecordQuery.Index.Chain`: lookups along a chain of links

For `address.city.name = 'Rome'` a chain proxy holds an index per hop: on `address` of the
queried class, on `city` of the addresses, on `name` of the cities. A lookup asks the last
index, turns the records found into link keys for the index before it, and so on back to the
first one. `Index` is what a query reads from: a stored index or such a proxy.
-/

set_option autoImplicit false

namespace RecordQuery

/-- A read-only view over at least two indexes, one per hop of a field chain. -/
structure ChainProxy where
  /-- The index of the first hop. -/
  first : StoredIndex
  /-- The indexes of the hops between the first and the last one. -/
  between : List StoredIndex
  /-- The index that the caller's key is looked up in. -/
  last : StoredIndex
deriving Repr

namespace ChainProxy

/-- Every hop, first one first. -/
def hops (proxy : ChainProxy) : List StoredIndex :=
  proxy.first :: (proxy.between ++ [proxy.last])

/-- The proxy over the given hops, of which there must be two at least. -/
def ofHops (hops : List StoredIndex) : Except Failure ChainProxy :=
  match hops with
  | first :: second :: rest =>
      let later := second :: rest
      .ok ⟨first, later.dropLast, later.getLast (by simp [later])⟩
  | _ => .error (.query (.chainTooShort (".".intercalate (hops.map (·.name)))))

/-- The name lists the hops. -/
def name (proxy : ChainProxy) : String :=
  "IndexChain\x7b" ++ ", ".intercalate (proxy.hops.map (·.name)) ++ "\x7d"

/-- The keys are those of the last hop, the class that of the first one. -/
def definition (proxy : ChainProxy) : IndexDefinition :=
  { proxy.last.definition with className := proxy.first.definition.className }

/-- The keys that the hop before an index has for records found in it: links to them, in
ascending order, each once. -/
def linkKeys (rids : List Rid) : List Rid := sortDistinct Rid.compare rids

/-- The entries of an index whose first component is a link to one of the records. -/
def lookupLinks (index : StoredIndex) (targets : List Rid) : Except Failure (List IndexEntry) :=
  if index.definition.isComposite then do
    let found ← targets.mapM fun target => index.lookup (.exact [.link target]) true
    return found.flatten
  else
    index.lookup (.oneOf (targets.map fun target => [.link target])) true

/-- Follows the hops given last one first: the records that lead to one of the targets. No
index is asked once there is no target left. -/
def followBack (targets : List Rid) : List StoredIndex → Except Failure (List Rid)
  | [] => .ok targets
  | index :: rest =>
      match linkKeys targets with
      | [] => .ok []
      | keys => do
          let found ← lookupLinks index keys
          followBack (found.map (·.rid)) rest

/-- The entries without those whose record occurred before. -/
def firstPerRid (seen : List Rid) : List IndexEntry → List IndexEntry
  | [] => []
  | e :: es =>
      if seen.contains e.rid then firstPerRid seen es else e :: firstPerRid (e.rid :: seen) es

/-- The entries of the first hop that lead to one of the records of the last hop. -/
def sources (proxy : ChainProxy) (found : List IndexEntry) : Except Failure (List IndexEntry) := do
  let reached ← followBack (found.map (·.rid)) proxy.between.reverse
  match linkKeys reached with
  | [] => return []
  | keys =>
      let entries ← lookupLinks proxy.first keys
      return firstPerRid [] entries

/-- Looks up the key in the last hop and follows the links back. -/
def lookup (proxy : ChainProxy) (query : IndexQuery) : Except Failure (List IndexEntry) := do
  let found ← proxy.last.lookup query true
  proxy.sources found

/-- Follows the links back from the null keys of the last hop. -/
def nulls (proxy : ChainProxy) : Except Failure (List IndexEntry) := do
  let found ← proxy.last.nulls
  proxy.sources found

/-- The refusal of an operation that the view does not offer. -/
def unsupported (proxy : ChainProxy) (operation : String) : Failure :=
  .unsupportedForView proxy.name operation

end ChainProxy

/-- What a query can read entries from. -/
inductive Index where
  /-- An index held in memory. -/
  | stored (index : StoredIndex)
  /-- A view along a chain of links. -/
  | chained (proxy : ChainProxy)
deriving Repr

namespace Index

/-- The name. -/
def name : Index → String
  | stored index => index.name
  | chained proxy => proxy.name

/-- The kind. -/
def kind : Index → IndexKind
  | stored index => index.kind
  | chained _ => .proxy

/-- The declared shape. -/
def definition : Index → IndexDefinition
  | stored index => index.definition
  | chained proxy => proxy.definition

/-- Whether walking the whole index gives the keys in order. -/
def isOrdered : Index → Bool
  | stored index => index.isOrdered
  | chained _ => false

/-- Whether there is at most one record per key; a view takes this from its first hop. -/
def isUnique : Index → Bool
  | stored index => index.kind.isUnique
  | chained proxy => proxy.first.kind.isUnique

/-- Looks up entries. A view gives them in the order of its first hop. -/
def lookup (index : Index) (query : IndexQuery) (ascending : Bool) :
    Except Failure (List IndexEntry) :=
  match index with
  | stored index => index.lookup query ascending
  | chained proxy => proxy.lookup query

/-- The entries whose key is not all null. -/
def walk (index : Index) (ascending : Bool) : Except Failure (List IndexEntry) :=
  match index with
  | stored index => index.walk ascending
  | chained proxy => .error (proxy.unsupported "stream")

/-- The entries whose key is all null. -/
def nulls : Index → Except Failure (List IndexEntry)
  | stored index => index.nulls
  | chained proxy => proxy.nulls

/-- The number of entries. -/
def size : Index → Except Failure Nat
  | stored index => index.size
  | chained proxy => .error (proxy.unsupported "size")

/-- The rank of an index for a hop that is not the last one: single-field before composite,
hashed before ordered. `-1` is for indexes that cannot be used there: composite ones that
leave nulls out or are hashed, and those that are neither ordered nor hashed. -/
def hopPriority (index : Index) : Int :=
  let composite := index.definition.isComposite
  let base : Int := if composite then 1 else 11
  if composite && index.definition.ignoreNulls then -1
  else if index.kind.isHash then (if composite then -1 else base + 10)
  else if index.kind.isTree then base + 5
  else -1

/-- The rank of the index found for a hop; finding none ranks as unusable. -/
def hopPriorityOf : Option Index → Int
  | some index => index.hopPriority
  | none => -1

/-- Whether the index can serve a hop that is not the last one. -/
def servesHop (index : Index) : Bool := 0 < index.hopPriority

end Index

end RecordQuery
