import RecordQuery.Sort.Runs

/-!
# `RecordQuery.StableSort`: sorting that keeps ties in place

In an order that is total on the elements there is one sorted list in which ties keep their
places, and `insertionSort` finds it. The order of values is not transitive, though: beyond
`2 ^ 53` one floating-point number equals several integers that differ. For such elements the
outcome depends on the way of sorting; long lists are then sorted by merging runs.
-/

set_option autoImplicit false

namespace RecordQuery

universe u

/-- The most elements that are sorted by insertion in any order. -/
def insertionLimit : Nat := 20

/-- Whether the list is in order and the order is total on its elements: a smaller element is
smaller than all that follow, and equal ones compare alike to all that follow. -/
def isRanked {α : Type u} (cmp : α → α → Ordering) : List α → Bool
  | x :: y :: rest =>
      (match cmp x y with
        | .lt => rest.all fun z => cmp x z == .lt
        | .eq => rest.all fun z => cmp x z == cmp y z
        | .gt => false) && isRanked cmp (y :: rest)
  | _ => true

/-- The elements in ascending order; equal ones stay in their order. `lead` is how many
elements at most are sorted at once where runs are merged. -/
def stableSortBy {α : Type u} (lead : Nat) (cmp : α → α → Ordering) (xs : List α) : List α :=
  let sorted := insertionSort cmp xs
  if xs.length ≤ insertionLimit || isRanked cmp sorted then sorted else runSort cmp lead xs

/-- The elements in ascending order; equal ones stay in their order. -/
def stableSort {α : Type u} (cmp : α → α → Ordering) (xs : List α) : List α :=
  stableSortBy 4 cmp xs

/-- The list without the elements that equal the one just before them. -/
def dropRepeats {α : Type u} (cmp : α → α → Ordering) : List α → List α
  | [] => []
  | x :: xs => x :: go x xs
where
  /-- The rest of the list, given the element last kept. -/
  go (kept : α) : List α → List α
  | [] => []
  | y :: ys => if cmp kept y == .eq then go kept ys else y :: go y ys

/-- The elements in ascending order, each once. -/
def sortDistinct {α : Type u} (cmp : α → α → Ordering) (xs : List α) : List α :=
  dropRepeats cmp (stableSort cmp xs)

/-- The elements in ascending order, each once, where eight elements are sorted at once: the
order of the choices of a lookup. -/
def sortChoices {α : Type u} (cmp : α → α → Ordering) (xs : List α) : List α :=
  dropRepeats cmp (stableSortBy 8 cmp xs)

end RecordQuery
