import RecordQuery.Condition.Basic

/-!
# `RecordQuery.Condition.RangeFolding`: two bounds become one BETWEEN

`field > a AND field < b` is read as one range, so that one index lookup can serve it.
`Condition.foldRanges` pairs, in every conjunction, each lower bound with the first upper bound
on the same field that is still free, or an upper bound with a lower one, whichever stands
first. It returns the number of pairs beside the condition.
-/

set_option autoImplicit false

namespace RecordQuery

/-- A comparison of a field with a constant that bounds the field from one side. -/
structure RangeBound where
  /-- The field. -/
  field : String
  /-- One of the four order operators, with the field on its left. -/
  operator : Operator
  /-- The constant, not null. -/
  value : Value

namespace Condition

/-- The bound that a condition is, if it bounds a field of the record at hand by a constant
other than null. -/
def rangeBound? : Condition → Option RangeBound
  | compare c =>
      match c.fieldOnLeft? with
      | some ⟨.field chain, operator, .literal value⟩ =>
          if chain.isLong || chain.isAttribute then none
          else if !(operator.isLowerBound || operator.isUpperBound) then none
          else if value.isNull then none
          else some ⟨chain.first, operator, value⟩
      | _ => none
  | _ => none

/-- The BETWEEN that two opposite bounds on one field make. The field name is read as a
path. -/
def ofBounds (first second : RangeBound) : Condition :=
  let (lower, upper) := if first.operator.isLowerBound then (first, second) else (second, first)
  .compare
    { left := .field (.parse lower.field)
      operator :=
        .between (lower.operator == .greaterOrEquals) (upper.operator == .lessOrEquals)
      right := .literal (.list [lower.value, upper.value]) }

/-- Whether the condition bounds the same field from the other side. -/
def isPartnerOf (first : RangeBound) (other : Condition) : Bool :=
  match other.rangeBound? with
  | some second =>
      second.field == first.field &&
        second.operator.isLowerBound != first.operator.isLowerBound
  | none => false

/-- The first partner of a bound among some conditions, and the conditions without it. -/
def takePartner? (first : RangeBound) : List Condition → Option (RangeBound × List Condition)
  | [] => none
  | c :: cs =>
      if isPartnerOf first c then c.rangeBound?.map fun second => (second, cs)
      else (takePartner? first cs).map fun (second, rest) => (second, c :: rest)

theorem length_takePartner? {first second : RangeBound} {cs rest : List Condition}
    (h : takePartner? first cs = some (second, rest)) : rest.length < cs.length := by
  induction cs generalizing rest with
  | nil => simp [takePartner?] at h
  | cons c cs ih =>
    unfold takePartner? at h
    split at h
    · simp only [Option.map_eq_some_iff, Prod.mk.injEq] at h
      obtain ⟨_, _, _, rfl⟩ := h
      simp
    · simp only [Option.map_eq_some_iff, Prod.mk.injEq, Prod.exists] at h
      obtain ⟨_, tail, found, rfl, rfl⟩ := h
      have := ih found
      simp only [List.length_cons]
      omega

/-- Pairs the bounds among the members of a conjunction, from the left; the BETWEEN of a pair
takes the place of its first member. -/
def pairBounds : List Condition → List Condition × Nat
  | [] => ([], 0)
  | c :: cs =>
      match c.rangeBound? with
      | none =>
          let (rest, pairs) := pairBounds cs
          (c :: rest, pairs)
      | some first =>
          match _ : takePartner? first cs with
          | none =>
              let (rest, pairs) := pairBounds cs
              (c :: rest, pairs)
          | some (second, others) =>
              let (rest, pairs) := pairBounds others
              (ofBounds first second :: rest, pairs + 1)
termination_by cs => cs.length
decreasing_by
  · simp
  · simp
  · have := length_takePartner? ‹_›
    simp only [List.length_cons]
    omega

/-- The conjunction of a non-empty list, grouped to the left. -/
def conjunction (first : Condition) (rest : List Condition) : Condition :=
  rest.foldl .and first

mutual

/-- The condition with its ranges folded, and the number of folded pairs. -/
def foldRanges : Condition → Condition × Nat
  | and left right =>
      let (lefts, leftPairs) := foldConjuncts left
      let (rights, rightPairs) := foldConjuncts right
      let (members, pairs) := pairBounds (lefts ++ rights)
      match members with
      | [] => (and left right, leftPairs + rightPairs + pairs)
      | first :: rest => (conjunction first rest, leftPairs + rightPairs + pairs)
  | or left right =>
      let (l, leftPairs) := foldRanges left
      let (r, rightPairs) := foldRanges right
      (or l r, leftPairs + rightPairs)
  | not inner =>
      let (i, pairs) := foldRanges inner
      (not i, pairs)
  | compare c => (compare c, 0)

/-- The members of a conjunction, each with its own ranges folded, and the number of pairs
folded inside them. -/
def foldConjuncts : Condition → List Condition × Nat
  | and left right =>
      let (lefts, leftPairs) := foldConjuncts left
      let (rights, rightPairs) := foldConjuncts right
      (lefts ++ rights, leftPairs + rightPairs)
  | or left right =>
      let (l, leftPairs) := foldRanges left
      let (r, rightPairs) := foldRanges right
      ([or l r], leftPairs + rightPairs)
  | not inner =>
      let (i, pairs) := foldRanges inner
      ([not i], pairs)
  | compare c => ([compare c], 0)

end

end Condition

end RecordQuery
