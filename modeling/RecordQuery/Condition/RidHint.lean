import RecordQuery.Condition.Basic

/-!
# `RecordQuery.Condition.RidHint`: bounds on identities

A conjunction that compares `@rid` with constant links holds only inside a range of
identities. The range is a hint: it never leaves out a record on which the condition holds.
-/

set_option autoImplicit false

namespace RecordQuery

/-- The identity that a conjunct compares `@rid` with, and the operator, `@rid` on its left. -/
def Condition.ridComparison? : Condition → Option (Operator × Rid)
  | .compare c =>
      match c.fieldOnLeft? with
      | some ⟨.field chain, operator, .literal (.link rid)⟩ =>
          if !chain.isLong && chain.first == ridAttribute then some (operator, rid) else none
      | _ => none
  | _ => none

/-- The range narrowed by one comparison of `@rid`. -/
def RidRange.narrow (range : RidRange) : Operator × Rid → RidRange
  | (.equals, rid) => (range.raiseLowest rid).lowerHighest rid
  | (.greater, rid) | (.greaterOrEquals, rid) => range.raiseLowest rid
  | (.less, rid) | (.lessOrEquals, rid) => range.lowerHighest rid
  | _ => range

/-- The range of identities outside of which the condition cannot hold. -/
def Condition.ridRange (condition : Condition) : RidRange :=
  (condition.conjuncts.filterMap Condition.ridComparison?).foldl RidRange.narrow .all

/-- The range of an optional condition; without one there are no bounds. -/
def ridRangeOf : Option Condition → RidRange
  | some condition => condition.ridRange
  | none => .all

end RecordQuery
