import RecordQuery.Plan.Basic
import RecordQuery.Search.Analysis

/-!
# `RecordQuery.Plan.Lookup`: from a search to an index lookup

A search becomes a lookup in an index whose leading fields are the search's fields. The
candidate is refused when the index leaves out what the search looks for, when the last
comparison is a range that does not fall on the last of those fields, or when the index
stores the other part of maps.
-/

set_option autoImplicit false

namespace RecordQuery

/-- The lookup for the last comparison of a search. `params` are the key components of all
fields of the search. Ranges need bounds other than null. -/
def lookupFor? (operator : Operator) (params : Key) (value : Value) : Option IndexQuery :=
  let leading := params.dropLast
  let range (lower upper : Bound Value) : Option IndexQuery :=
    if value.isNull then none else some (.range leading lower upper)
  match operator with
  | .equals | .contains | .containsKey | .containsValue => some (.exact params)
  | .oneOf =>
      match value with
      | .list items => some (.oneOf (items.map fun item => leading ++ [item]))
      | _ => none
  | .less => range .unbounded (.excluded value)
  | .lessOrEquals => range .unbounded (.included value)
  | .greater => range (.excluded value) .unbounded
  | .greaterOrEquals => range (.included value) .unbounded
  | .between lowerInclusive upperInclusive =>
      match value with
      | .list [lower, upper] =>
          if lower.isNull || upper.isNull then none
          else range (.ofValue lower lowerInclusive) (.ofValue upper upperInclusive)
      | _ => none
  | _ => none

/-- Whether an index stores the part of maps that the operator looks at. -/
def IndexDefinition.storesPartFor (definition : IndexDefinition) : Operator → Bool
  | .containsKey => definition.mapPart == .keys
  | .containsValue => definition.mapPart == .values
  | _ => true

/-- Whether the last comparison falls on the right field of the index. Equalities may stand
in any order; anything else has to come last. -/
def IndexDefinition.placesLast (definition : IndexDefinition) (search : Search) : Bool :=
  search.lastOperator.isEqualityClass ||
    definition.fields[search.bound.length]? == some search.lastField.last

/-- The key components that a search gives to an index, in the order of its fields. -/
def IndexDefinition.paramsFor (definition : IndexDefinition) (search : Search) : Key :=
  (definition.fields.take search.fields.length).map fun field =>
    (search.boundValue? field).getD search.lastValue

namespace Index

/-- Whether a walk along the index gives the order asked for, as far as it names fields that
the index has: one direction for all, and the fields of the index in their order. -/
def matchesOrder (index : Index) (order : List OrderItem) : Bool :=
  match order with
  | [] => false
  | first :: _ =>
      index.isOrdered && index.walkOrder != .unordered &&
        (order.zip index.definition.fields).all fun (item, field) =>
          item.direction == first.direction && !item.field.isLong && item.field.first == field

/-- Whether the index itself, and not a view over others, matches the order asked for. -/
def servesOrder (index : Index) (order : List OrderItem) : Bool :=
  index.kind != .proxy && index.matchesOrder order

/-- Whether keys are to be visited upwards to get the order asked for. -/
def visitsUpwards (index : Index) (order : List OrderItem) : Bool :=
  match order with
  | [] => true
  | first :: _ => (first.direction == .asc) == (index.walkOrder != .descending)

/-- Indexes with fewer fields first; among equals, those that serve the order asked for. -/
def comparePreference (order : List OrderItem) (a b : Index) : Ordering :=
  (Ord.compare a.definition.paramCount b.definition.paramCount).then
    (Ord.compare (b.servesOrder order) (a.servesOrder order))

/-- The candidate that an index gives for a search. -/
def candidate? (index : Index) (search : Search) (query : SelectQuery) (onlyBranch : Bool) :
    Option Candidate :=
  let definition := index.definition
  if search.hasNulls && definition.ignoreNulls then none
  else if definition.fields.length < search.fields.length then none
  else if !definition.placesLast search then none
  else if !definition.storesPartFor search.lastOperator then none
  else
    (lookupFor? search.lastOperator (definition.paramsFor search) search.lastValue).map
      fun lookup =>
        let usable := index.servesOrder query.orderBy
        { index, lookup, search
          ascending := !usable || index.visitsUpwards query.orderBy
          sorted := usable && onlyBranch && query.expand.isNone &&
            query.orderBy.length ≤ definition.fields.length }

end Index

/-- The lookups chosen for all alternatives of a condition. -/
structure Selection where
  /-- The candidates of every alternative. -/
  branches : List Branch
  /-- Whether the best candidate of an alternative gives the order asked for. -/
  fullySorted : Bool
  /-- Whether the best candidate of an alternative matches that order. -/
  usedInOrderBy : Bool

namespace Store

/-- The candidates for one alternative, best first. -/
def branchFor (store : Store) (className : String) (query : SelectQuery) (onlyBranch : Bool)
    (searches : List Search) : Branch :=
  searches.flatMap fun search =>
    (stableSort (Index.comparePreference query.orderBy)
      (store.servingIndexes className search)).filterMap fun index =>
        index.candidate? search query onlyBranch

/-- A lookup for every alternative of the condition; none when an alternative has no
candidate. -/
def selectLookups? (store : Store) (vars : Fields) (className : String)
    (condition : Condition) (query : SelectQuery) : Option Selection :=
  let alternatives := store.searchBranches vars className condition
  let onlyBranch := alternatives.length == 1
  alternatives.foldlM
    (fun (selection : Selection) searches =>
      match store.branchFor className query onlyBranch searches with
      | [] => none
      | best :: others => some
          { branches := selection.branches ++ [best :: others]
            fullySorted := selection.fullySorted || best.sorted
            usedInOrderBy := selection.usedInOrderBy || best.index.servesOrder query.orderBy })
    ⟨[], false, false⟩

end Store

end RecordQuery
