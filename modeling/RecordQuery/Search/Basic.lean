import RecordQuery.Condition.Basic

/-!
# `RecordQuery.Search.Basic`: searches that an index could serve

A search binds some fields to exact values and ends in one comparison, which may be a range,
a list of choices, or one more equality. Searches of a conjunction are merged: the side that
ends in an equality gives that field to the bound ones of the other side.
-/

set_option autoImplicit false

namespace RecordQuery

/-- Fields bound to exact values, and one last comparison. -/
structure Search where
  /-- The bound fields, in the order in which they were bound, each once. -/
  bound : List (String × Value)
  /-- The field of the last comparison; it may be a chain. -/
  lastField : FieldChain
  /-- The operator of the last comparison. -/
  lastOperator : Operator
  /-- The constant of the last comparison. -/
  lastValue : Value
  /-- Whether some value to be found is null. -/
  hasNulls : Bool
deriving BEq, Repr

namespace Search

/-- Whether a comparison with the constant looks for a null. -/
def seeksNull (operator : Operator) (value : Value) : Bool :=
  match operator, value with
  | .oneOf, .list items => items.any Value.isNull
  | .between _ _, .list items => items.any Value.isNull
  | _, value => value.isNull

/-- The search of a single comparison. -/
def ofComparison (operator : Operator) (field : FieldChain) (value : Value) : Search :=
  ⟨[], field, operator, value, seeksNull operator value⟩

/-- The value that a field is bound to. -/
def boundValue? (search : Search) (field : String) : Option Value :=
  (search.bound.find? fun (name, _) => name == field).map (·.2)

/-- Binds a field, in place when it is bound already. -/
def bind (bound : List (String × Value)) (field : String) (value : Value) :
    List (String × Value) :=
  match bound with
  | [] => [(field, value)]
  | (name, old) :: rest =>
      if name == field then (name, value) :: rest else (name, old) :: bind rest field value

/-- Whether two searches can become one: neither ends in a chain, in a list of choices or in
BETWEEN, and one of them ends in an equality. -/
def isMergeable (a b : Search) : Bool :=
  !a.lastField.isLong && !b.lastField.isLong &&
    (a.lastOperator.isMergeable && b.lastOperator.isMergeable) &&
    (a.lastOperator.isEqualityClass || b.lastOperator.isEqualityClass)

/-- The main search with everything that the anchor binds, its last field included. -/
def absorb (main anchor : Search) : Search :=
  let shared := (anchor.bound ++ main.bound).foldl
    (fun bound (field, value) => bind bound field value) []
  { main with
    bound := bind shared anchor.lastField.first anchor.lastValue
    hasNulls := anchor.hasNulls || main.hasNulls }

/-- One search for both. The anchor is the side that ends in `=`, the second one first; then
the side that ends in another equality. -/
def merge (a b : Search) : Search :=
  if b.lastOperator == .equals then absorb a b
  else if a.lastOperator == .equals then absorb b a
  else if b.lastOperator.isEqualityClass then absorb a b
  else absorb b a

/-- The bound fields and the field of the last comparison. -/
def fields (search : Search) : List String :=
  search.bound.map (·.1) ++ [search.lastField.first]

/-- The number of fields that the search constrains. -/
def fieldCount (search : Search) : Nat := search.bound.length + 1

/-- What two searches of one shape share: their fields and the last operator, not the
values. -/
def shape (search : Search) : List String × FieldChain × Operator :=
  (search.bound.map (·.1), search.lastField, search.lastOperator)

/-- The written form of the search. -/
def text (search : Search) : String :=
  String.join (search.bound.map fun (name, value) => name ++ " = " ++ value.text ++ ", ") ++
    search.lastField.text ++ " " ++ search.lastOperator.keyword ++ " " ++ search.lastValue.text

end Search

end RecordQuery
