import RecordQuery.Index.Definition
import RecordQuery.Index.Query
import RecordQuery.LeveledList
import RecordQuery.Record
import RecordQuery.StableSort

/-!
# `RecordQuery.Index.Stored`: indexes held in memory

An index keeps its entries in buckets, one per key, in ascending key order; a bucket lists
its records in ascending order of identity. A bucket keeps the key it was made with, so of
two equal keys the earlier one is the one that is read back. Lookups of leading components
start where a search for them ends, and end at the first key that does not start with them.

An index can be switched to failing: it then refuses every read, and still takes writes.
-/

set_option autoImplicit false

namespace RecordQuery

/-- The records of one key. -/
structure Bucket where
  /-- The key. -/
  key : Key
  /-- The records, in ascending order, each once. -/
  rids : List Rid
deriving Repr

namespace Bucket

/-- The entries of the bucket. -/
def entries (bucket : Bucket) : List IndexEntry :=
  bucket.rids.map fun rid => ⟨bucket.key, rid⟩

/-- Puts an identity into an ascending list, once. -/
def insertRid (rid : Rid) : List Rid → List Rid
  | [] => [rid]
  | r :: rs =>
      match rid.compare r with
      | .lt => rid :: r :: rs
      | .eq => r :: rs
      | .gt => r :: insertRid rid rs

/-- All entries of some buckets, in order. -/
def allEntries (buckets : List Bucket) : List IndexEntry := buckets.flatMap entries

end Bucket

/-- Buckets in ascending key order. -/
abbrev Buckets := LeveledList Bucket

namespace Buckets

/-- The place of a key. -/
def place (key : Key) (buckets : Buckets) : Place :=
  buckets.locate fun b => key.compare b.key

/-- The records under a key. -/
def get? (key : Key) (buckets : Buckets) : Option (List Rid) :=
  (buckets.find? fun b => key.compare b.key).map (·.rids)

/-- Adds a record under a key. -/
def insert (key : Key) (rid : Rid) (buckets : Buckets) : Buckets :=
  match buckets.place key with
  | .found i => buckets.modifyAt i fun b => { b with rids := Bucket.insertRid rid b.rids }
  | .vacant i => buckets.insertAt i ⟨key, [rid]⟩

/-- Removes a record under a key, and the bucket with its last record. -/
def erase (key : Key) (rid : Rid) (buckets : Buckets) : Buckets :=
  match buckets.place key with
  | .found i =>
      let kept := buckets.modifyAt i fun b => { b with rids := b.rids.filter (· != rid) }
      if kept.elements[i]?.any (·.rids.isEmpty) then buckets.eraseAt i else kept
  | .vacant _ => buckets

/-- The buckets from the place of the given components up to the first key that does not
start with them. -/
def startingWith (leading : Key) (buckets : Buckets) : List Bucket :=
  (buckets.onwards fun b => leading.compare b.key).takeWhile fun b => b.key.startsWith leading

end Buckets

/-- An index held in memory. -/
structure StoredIndex where
  /-- The name, unique within a store. -/
  name : String
  /-- The kind. -/
  kind : IndexKind
  /-- The declared shape. -/
  definition : IndexDefinition
  /-- The entries. -/
  buckets : Buckets
  /-- Whether reads are refused. -/
  failing : Bool
deriving Repr

namespace StoredIndex

/-- An index without entries. -/
def empty (name : String) (kind : IndexKind) (definition : IndexDefinition) : StoredIndex :=
  ⟨name, kind, definition, .empty, false⟩

/-- Whether walking the whole index gives the keys in order. -/
def isOrdered (index : StoredIndex) : Bool :=
  !index.kind.isHash && index.kind != .dictionaryHash

/-- The values that a field contributes to keys: the items of a list, the indexed part of a
map, null for an empty one, otherwise the value itself. -/
def components (part : MapPart) : Value → List Value
  | .list [] | .map [] => [.null]
  | .list items => items
  | .map entries =>
      match part with
      | .keys => entries.map fun (name, _) => .string name
      | .values => entries.map fun (_, value) => value
  | value => [value]

/-- Every choice of one component per field. -/
def combine : List (List Value) → List Key
  | [] => [[]]
  | choices :: rest => choices.flatMap fun v => (combine rest).map fun key => v :: key

/-- The keys that a record contributes, in ascending order, each once. -/
def keysFor (index : StoredIndex) (record : Record) : List Key :=
  let keys := combine (index.definition.fields.map fun field =>
    components index.definition.mapPart (record.get field))
  let kept :=
    if index.definition.ignoreNulls then keys.filter fun key => !key.any Value.isNull else keys
  sortDistinct Key.compare kept

/-- Whether a unique index already holds the key for another record. Keys that are all null
never collide. -/
def conflicts (index : StoredIndex) (key : Key) (rid : Rid) : Bool :=
  index.kind.isUnique && !key.isNull &&
    match index.buckets.get? key with
    | some rids => rids.any (· != rid)
    | none => false

/-- Adds an entry; a unique index refuses a key that another record holds. -/
def put (index : StoredIndex) (key : Key) (rid : Rid) : Except Failure StoredIndex :=
  if index.conflicts key rid then .error (.invalid .duplicateKey)
  else .ok { index with buckets := index.buckets.insert key rid }

/-- Adds the entries of several keys of one record. -/
def putAll (index : StoredIndex) (keys : List Key) (rid : Rid) : Except Failure StoredIndex :=
  keys.foldlM (fun index key => index.put key rid) index

/-- Whether the index holds the record under the key. -/
def holds (index : StoredIndex) (key : Key) (rid : Rid) : Bool :=
  ((index.buckets.get? key).getD []).contains rid

/-- Removes an entry. -/
def remove (index : StoredIndex) (key : Key) (rid : Rid) : StoredIndex :=
  { index with buckets := index.buckets.erase key rid }

/-- Removes every entry. -/
def clear (index : StoredIndex) : StoredIndex := { index with buckets := .empty }

/-- Refuses the read while the index is failing. -/
def read {α : Type} (index : StoredIndex) (result : α) : Except Failure α :=
  if index.failing then .error (.index index.name "index unavailable") else .ok result

/-- The entries that a lookup names, in ascending key order. -/
def matching (index : StoredIndex) : IndexQuery → List IndexEntry
  | .exact leading => Bucket.allEntries (index.buckets.startingWith leading)
  | .oneOf choices =>
      (sortChoices Key.compare choices).flatMap fun leading =>
        Bucket.allEntries (index.buckets.startingWith leading)
  | .range leading lower upper =>
      Bucket.allEntries ((index.buckets.startingWith leading).filter fun b =>
        match b.key[leading.length]? with
        | some component => component.isWithin lower upper
        | none => false)
  | .keyRange lower upper =>
      Bucket.allEntries (index.buckets.elements.filter fun b => b.key.isWithin lower upper)

/-- The entries in the direction asked for. -/
def directed (ascending : Bool) (entries : List IndexEntry) : List IndexEntry :=
  if ascending then entries else entries.reverse

/-- Looks up entries. -/
def lookup (index : StoredIndex) (query : IndexQuery) (ascending : Bool) :
    Except Failure (List IndexEntry) :=
  index.read (directed ascending (index.matching query))

/-- The entries whose key is not all null. -/
def walk (index : StoredIndex) (ascending : Bool) : Except Failure (List IndexEntry) :=
  index.read (directed ascending
    (Bucket.allEntries (index.buckets.elements.filter fun b => !b.key.isNull)))

/-- The entries whose key is all null. -/
def nulls (index : StoredIndex) : Except Failure (List IndexEntry) :=
  index.read (Bucket.allEntries (index.buckets.elements.filter fun b => b.key.isNull))

/-- The number of entries. -/
def size (index : StoredIndex) : Except Failure Nat :=
  index.read (index.buckets.elements.flatMap (·.rids)).length

end StoredIndex

end RecordQuery
