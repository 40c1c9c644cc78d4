/-!
# `RecordQuery.Index.Definition`: what an index is declared to hold

An index has a kind (ordered or hashed, unique or not) and a definition: the class, the
fields whose values make up its keys, and how nulls and maps are treated.
-/

set_option autoImplicit false

namespace RecordQuery

/-- Implementation families; of each family one index is enough for a lookup. -/
inductive IndexFamily where
  | tree | hash | fulltext | dictionary | dictionaryHash | spatial | proxy
deriving DecidableEq, Repr

/-- Kinds of indexes. -/
inductive IndexKind where
  /-- Ordered, one record per key. -/
  | unique
  /-- Ordered, any number of records per key. -/
  | notUnique
  /-- Hashed, one record per key. -/
  | uniqueHash
  /-- Hashed, any number of records per key. -/
  | notUniqueHash
  | fulltext
  | dictionary
  | dictionaryHash
  | spatial
  /-- A view over other indexes. -/
  | proxy
deriving DecidableEq, Repr

namespace IndexKind

/-- Whether the index is a hashed one, unique or not. -/
def isHash : IndexKind → Bool
  | uniqueHash | notUniqueHash => true
  | _ => false

/-- Whether the index is an ordered one, unique or not. -/
def isTree : IndexKind → Bool
  | unique | notUnique => true
  | _ => false

/-- Whether the index holds at most one record per key. -/
def isUnique : IndexKind → Bool
  | unique | uniqueHash => true
  | _ => false

/-- The implementation family. -/
def family : IndexKind → IndexFamily
  | unique | notUnique => .tree
  | uniqueHash | notUniqueHash => .hash
  | fulltext => .fulltext
  | dictionary => .dictionary
  | dictionaryHash => .dictionaryHash
  | spatial => .spatial
  | proxy => .proxy

/-- The written name of the kind. -/
def text : IndexKind → String
  | unique => "UNIQUE"
  | notUnique => "NOTUNIQUE"
  | uniqueHash => "UNIQUE_HASH_INDEX"
  | notUniqueHash => "NOTUNIQUE_HASH_INDEX"
  | fulltext => "FULLTEXT"
  | dictionary => "DICTIONARY"
  | dictionaryHash => "DICTIONARY_HASH_INDEX"
  | spatial => "SPATIAL"
  | proxy => "PROXY"

/-- Every kind. -/
def all : List IndexKind :=
  [unique, notUnique, uniqueHash, notUniqueHash, fulltext, dictionary, dictionaryHash, spatial, proxy]

/-- The kind that has the written name. -/
def ofText? (name : String) : Option IndexKind := all.find? fun kind => kind.text == name

/-- A kind is read back from its written name. -/
theorem ofText?_text (kind : IndexKind) : ofText? kind.text = some kind := by
  cases kind <;> decide

end IndexKind

/-- The part of a map-valued field that goes into the keys. -/
inductive MapPart where
  /-- The names of the map. -/
  | keys
  /-- The values of the map. -/
  | values
deriving DecidableEq, Repr

/-- The declared shape of an index. -/
structure IndexDefinition where
  /-- The class whose records, with those of its subclasses, the index holds. -/
  className : String
  /-- The fields whose values make up a key, in key order. -/
  fields : List String
  /-- Whether keys with a null component are left out. -/
  ignoreNulls : Bool
  /-- The part of map-valued fields that is indexed. -/
  mapPart : MapPart
deriving DecidableEq, Repr

namespace IndexDefinition

/-- The number of key components. -/
def paramCount (definition : IndexDefinition) : Nat := definition.fields.length

/-- Whether keys have more than one component. -/
def isComposite (definition : IndexDefinition) : Bool := 1 < definition.fields.length

end IndexDefinition

end RecordQuery
