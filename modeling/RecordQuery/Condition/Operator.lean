import RecordQuery.Condition.Wildcard
import RecordQuery.Value

/-!
# `RecordQuery.Condition.Operator`: comparison operators

`Operator.apply` is the meaning of an operator on two values. The order operators hold only
between two values of one comparable kind, never on null. The classification functions say
how an index could serve a comparison.
-/

set_option autoImplicit false

namespace RecordQuery

/-- What an index can do for a part of a condition. -/
inductive IndexReuse where
  /-- The conjuncts may share one lookup. -/
  | intersection
  /-- Every alternative needs a lookup of its own. -/
  | union
  /-- The comparison is one lookup. -/
  | lookup
  /-- No index helps. -/
  | filterOnly
deriving DecidableEq, Repr

/-- Comparison operators. -/
inductive Operator where
  | equals
  | notEquals
  | less
  | lessOrEquals
  | greater
  | greaterOrEquals
  /-- Between the two values of a list, each end inclusive or not. -/
  | between (lowerInclusive upperInclusive : Bool)
  /-- One of the values of a list, or the value itself. -/
  | oneOf
  /-- A list that has the value among its items. -/
  | contains
  /-- A map that has the name. -/
  | containsKey
  /-- A map that has the value under some name. -/
  | containsValue
  /-- A text that the pattern matches. -/
  | like
  | isNull
  | isNotNull
deriving DecidableEq, Repr

namespace Operator

/-- The keyword of the operator. -/
def keyword : Operator → String
  | equals => "="
  | notEquals => "<>"
  | less => "<"
  | lessOrEquals => "<="
  | greater => ">"
  | greaterOrEquals => ">="
  | between _ _ => "BETWEEN"
  | oneOf => "IN"
  | contains => "CONTAINS"
  | containsKey => "CONTAINSKEY"
  | containsValue => "CONTAINSVALUE"
  | like => "LIKE"
  | isNull => "IS NULL"
  | isNotNull => "IS NOT NULL"

/-- What an index can do for a field compared with a constant by this operator. -/
def reuse : Operator → IndexReuse
  | notEquals | like | isNotNull => .filterOnly
  | _ => .lookup

/-- Operators that pin a field to exact key values. -/
def isEqualityClass : Operator → Bool
  | equals | contains | containsKey | containsValue => true
  | _ => false

/-- Whether a lookup that ends in this operator may be merged with another one. -/
def isMergeable : Operator → Bool
  | between _ _ | oneOf => false
  | _ => true

/-- Operators that bound a field from below. -/
def isLowerBound : Operator → Bool
  | greater | greaterOrEquals => true
  | _ => false

/-- Operators that bound a field from above. -/
def isUpperBound : Operator → Bool
  | less | lessOrEquals => true
  | _ => false

/-- Whether the operator looks at its left operand only. -/
def isUnary : Operator → Bool
  | isNull | isNotNull => true
  | _ => false

/-- The operator after its operands have changed sides, where there is one. -/
def inverted? : Operator → Option Operator
  | equals => some equals
  | notEquals => some notEquals
  | less => some greater
  | lessOrEquals => some greaterOrEquals
  | greater => some less
  | greaterOrEquals => some lessOrEquals
  | oneOf => some contains
  | contains => some oneOf
  | _ => none

/-- Whether two values stand in an order that the order operators see: both numbers, both
strings, both truth values, both links or both lists. -/
def comparable : Value → Value → Bool
  | .int _, .int _ | .int _, .float _ | .float _, .int _ | .float _, .float _ => true
  | .string _, .string _ => true
  | .bool _, .bool _ => true
  | .link _, .link _ => true
  | .list _, .list _ => true
  | _, _ => false

/-- The order of two comparable values. -/
def ordered? (left right : Value) : Option Ordering :=
  if comparable left right then some (left.compare right) else none

/-- The two bounds that BETWEEN finds in its right operand. -/
def betweenBounds : Value → Except QueryError (Value × Value)
  | .list [lower, upper] => .ok (lower, upper)
  | _ => .error (.operandShape "BETWEEN" "a list of two bounds")

/-- The meaning of the operator on two values. -/
def apply (op : Operator) (left right : Value) : Except QueryError Bool :=
  match op with
  | equals => .ok (left == right)
  | notEquals => .ok (left != right)
  | less => .ok ((ordered? left right).any (·.isLT))
  | lessOrEquals => .ok ((ordered? left right).any (·.isLE))
  | greater => .ok ((ordered? left right).any (·.isGT))
  | greaterOrEquals => .ok ((ordered? left right).any (·.isGE))
  | between lowerInclusive upperInclusive =>
      match betweenBounds right with
      | .error e => .error e
      | .ok (lower, upper) =>
          let above := (ordered? left lower).any fun o => if lowerInclusive then o.isGE else o.isGT
          let below := (ordered? left upper).any fun o => if upperInclusive then o.isLE else o.isLT
          .ok (above && below)
  | oneOf =>
      match right with
      | .list items => .ok (items.any (· == left))
      | other => .ok (other == left)
  | contains =>
      match left with
      | .list items => .ok (items.any (· == right))
      | _ => .ok false
  | containsKey =>
      match left, right with
      | .map entries, .string name => .ok (entries.any fun (k, _) => k == name)
      | _, _ => .ok false
  | containsValue =>
      match left with
      | .map entries => .ok (entries.any fun (_, v) => v == right)
      | _ => .ok false
  | like =>
      match left, right with
      | .string text, .string pattern => .ok (Wildcard.accepts pattern.toList text.toList)
      | _, _ => .ok false
  | isNull => .ok left.isNull
  | isNotNull => .ok (!left.isNull)

end Operator

end RecordQuery
