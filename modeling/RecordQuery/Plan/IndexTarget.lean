import RecordQuery.Plan.Basic

/-!
# `RecordQuery.Plan.IndexTarget`: conditions on the key of an index target

The rows of an index target have a `key` and a `rid`. A condition on them is a conjunction of
comparisons of `key` with constants. It becomes one lookup that is wide enough, and a
`KeyFilter` with all constraints, which every entry of the lookup is checked against.
-/

set_option autoImplicit false

namespace RecordQuery

/-- The column that holds the key of an index entry. -/
def keyColumn : String := "key"

/-- The column that holds the record of an index entry. -/
def ridColumn : String := "rid"

/-- The lower bound that leaves less room. -/
def tighterLower (current candidate : Bound Value) : Bound Value :=
  match current.value?, candidate.value? with
  | none, _ => candidate
  | _, none => current
  | some a, some b =>
      match a.compare b with
      | .lt => candidate
      | .gt => current
      | .eq => if candidate.isExcluded then candidate else current

/-- The upper bound that leaves less room. -/
def tighterUpper (current candidate : Bound Value) : Bound Value :=
  match current.value?, candidate.value? with
  | none, _ => candidate
  | _, none => current
  | some a, some b =>
      match a.compare b with
      | .gt => candidate
      | .lt => current
      | .eq => if candidate.isExcluded then candidate else current

/-- What the conjuncts read so far say about the key. -/
structure KeyTerms where
  /-- Every constraint. -/
  keys : KeyFilter
  /-- The tightest lower bound. -/
  lower : Bound Value
  /-- The tightest upper bound. -/
  upper : Bound Value

namespace KeyTerms

/-- Nothing said yet. -/
def empty : KeyTerms := ⟨.empty, .unbounded, .unbounded⟩

/-- The leading key components that a constant names: the items of a list for a composite
key, otherwise the constant alone. -/
def components (composite : Bool) (value : Value) : Key :=
  match composite, value with
  | true, .list items => items
  | _, value => [value]

/-- The terms with `key = value`. -/
def addExact (terms : KeyTerms) (leading : Key) : KeyTerms :=
  { terms with keys := { terms.keys with exact := terms.keys.exact ++ [leading] } }

/-- The terms with a list of choices. -/
def addChoices (terms : KeyTerms) (choices : List Key) : KeyTerms :=
  { terms with keys := { terms.keys with anyOf := terms.keys.anyOf ++ [choices] } }

/-- The terms with a lower bound. -/
def addLower (composite : Bool) (terms : KeyTerms) (bound : Bound Value) : KeyTerms :=
  { terms with
    keys := { terms.keys with lower := terms.keys.lower ++ [bound.map (components composite)] }
    lower := tighterLower terms.lower bound }

/-- The terms with an upper bound. -/
def addUpper (composite : Bool) (terms : KeyTerms) (bound : Bound Value) : KeyTerms :=
  { terms with
    keys := { terms.keys with upper := terms.keys.upper ++ [bound.map (components composite)] }
    upper := tighterUpper terms.upper bound }

/-- The operator and constant of a comparison of the key with a constant, the key on the
left. -/
def keyComparison? : Condition → Option (Operator × Value)
  | .compare c =>
      match c.fieldOnLeft? with
      | some ⟨.field chain, operator, .literal value⟩ =>
          if !chain.isLong && chain.first == keyColumn then some (operator, value) else none
      | _ => none
  | _ => none

/-- The terms with one more conjunct. -/
def add (index : Index) (terms : KeyTerms) (conjunct : Condition) : Except Failure KeyTerms :=
  let composite := index.definition.isComposite
  let unsupported : Except Failure KeyTerms :=
    .error (.query (.unsupportedIndexFilter index.name conjunct.text))
  match keyComparison? conjunct with
  | none => unsupported
  | some (operator, value) =>
      match operator with
      | .equals => .ok (terms.addExact (components composite value))
      | .oneOf =>
          let items := match value with
            | .list items => items
            | other => [other]
          .ok (terms.addChoices (items.map (components composite)))
      | .greater => .ok (terms.addLower composite (.excluded value))
      | .greaterOrEquals => .ok (terms.addLower composite (.included value))
      | .less => .ok (terms.addUpper composite (.excluded value))
      | .lessOrEquals => .ok (terms.addUpper composite (.included value))
      | .between lowerInclusive upperInclusive =>
          match Operator.betweenBounds value with
          | .error e => .error (.query e)
          | .ok (low, high) =>
              .ok ((terms.addLower composite (.ofValue low lowerInclusive)).addUpper composite
                (.ofValue high upperInclusive))
      | _ => unsupported

/-- The terms of a whole condition. -/
def ofCondition (index : Index) (condition : Condition) : Except Failure KeyTerms :=
  condition.conjuncts.foldlM (add index) empty

/-- One lookup that finds every entry the terms allow: the first equality, or the first list
of choices, or the range. -/
def lookup (composite : Bool) (terms : KeyTerms) : IndexQuery :=
  match terms.keys.exact, terms.keys.anyOf with
  | leading :: _, _ => .exact leading
  | [], choices :: _ => .oneOf choices
  | [], [] =>
      if composite then
        .keyRange (terms.keys.lower.head?.getD .unbounded) (terms.keys.upper.head?.getD .unbounded)
      else .range [] terms.lower terms.upper

end KeyTerms

end RecordQuery
