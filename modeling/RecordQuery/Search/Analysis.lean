import RecordQuery.Search.Basic
import RecordQuery.Store.Catalog

/-!
# `RecordQuery.Search.Analysis`: from a condition to searches

The alternatives of a top-level OR are analysed one by one, because every one of them needs a
lookup of its own. Inside an alternative, each comparison of a field with a known constant is
a search, and the searches of a conjunction are merged where an index covers their fields.
The searches of an alternative are listed with the most fields first.
-/

set_option autoImplicit false

namespace RecordQuery

/-- What the analysis of a condition found: the searches that some index covers, in order of
discovery, and the search that stands for the whole condition. -/
structure Analysis where
  /-- The searches that some index covers. -/
  covered : List Search
  /-- The search for the condition as a whole. -/
  whole : Option Search

namespace Store

/-- The class that a chain reaches at each hop is linked, and some index covers the field
there. -/
def hopsCovered (store : Store) (className : String) (property : String) :
    List String → Bool
  | [] => true
  | next :: rest =>
      match store.schema.linkedClass? className property with
      | none => false
      | some linked => store.covers linked [next] && hopsCovered store linked next rest

/-- Whether some index covers the search, and every hop of its last field. -/
def coversSearch (store : Store) (className : String) (search : Search) : Bool :=
  store.covers className search.fields &&
    store.hopsCovered className search.lastField.first search.lastField.hops

end Store

/-- The constant that an index key is made from; a variable must be bound. -/
def Operand.keyConstant? (operand : Operand) (vars : Fields) : Option Value :=
  match operand with
  | .field _ => none
  | .literal value => some value
  | .named name => vars.get? name

/-- The operator and constant to search for. IS NULL searches for null, IN for a list of
choices. BETWEEN needs two bounds, and no key equals a whole list or map. -/
def searchTerm? (operator : Operator) (value : Value) : Option (Operator × Value) :=
  match operator, value with
  | .oneOf, .list items => some (.oneOf, .list items)
  | .oneOf, single => some (.oneOf, .list [single])
  | .between l u, .list items =>
      if items.length == 2 then some (.between l u, .list items) else none
  | .between _ _, _ => none
  | .equals, .list _ | .equals, .map _ => none
  | operator, value => some (operator, value)

/-- The search that a comparison asks for. -/
def Comparison.search? (c : Comparison) (vars : Fields) : Option Search :=
  match c.fieldOnLeft? with
  | some ⟨.field chain, operator, right⟩ =>
      if chain.isAttribute then none
      else
        let term := match operator with
          | .isNull => searchTerm? .equals .null
          | op => (right.keyConstant? vars).bind (searchTerm? op)
        term.map fun (op, value) => Search.ofComparison op chain value
  | _ => none

namespace Store

/-- The searches of a condition without a top-level OR. -/
def analyze (store : Store) (vars : Fields) (className : String) :
    Condition → Analysis
  | .and left right =>
      let l := store.analyze vars className left
      let r := store.analyze vars className right
      let covered := l.covered ++ r.covered
      match l.whole, r.whole with
      | some a, some b =>
          if a.isMergeable b then
            let merged := a.merge b
            ⟨if store.covers className merged.fields then covered ++ [merged] else covered,
              some merged⟩
          else ⟨covered, none⟩
      | _, _ => ⟨covered, none⟩
  | .compare c =>
      if c.reuse == .lookup then
        match c.search? vars with
        | some search =>
            ⟨if store.coversSearch className search then [search] else [], some search⟩
        | none => ⟨[], none⟩
      else ⟨[], none⟩
  | _ => ⟨[], none⟩

/-- The searches of one alternative, the ones with the most fields first. When no index
covers any, the search of the whole alternative is kept. -/
def branchSearches (store : Store) (vars : Fields) (className : String)
    (condition : Condition) : List Search :=
  let found := store.analyze vars className condition
  let searches := if found.covered.isEmpty then found.whole.toList else found.covered
  stableSort (fun a b => Ord.compare b.fieldCount a.fieldCount) searches

/-- The searches of every alternative of a condition. -/
def searchBranches (store : Store) (vars : Fields) (className : String) :
    Condition → List (List Search)
  | .or left right =>
      store.searchBranches vars className left ++
        store.searchBranches vars className right
  | other => [store.branchSearches vars className other]

/-- The indexes that could serve a search: proxies for a chain, otherwise the indexes that
cover its fields. -/
def servingIndexes (store : Store) (className : String) (search : Search) : List Index :=
  if search.lastField.isLong then
    (store.chainProxies className search.lastField).map .chained
  else (store.indexesCovering className search.fields).map .stored

end Store

end RecordQuery
