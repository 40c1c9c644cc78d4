/-!
# `RecordQuery.Sort.Insertion`: sorting by insertion

`insertionSort` takes the elements one by one and moves each new one back over the larger ones
at the end of those sorted so far. Equal elements keep their order.
-/

set_option autoImplicit false

namespace RecordQuery

universe u

/-- Puts an element into a list sorted downwards, behind the elements that are larger. -/
def insertDown {α : Type u} (cmp : α → α → Ordering) (x : α) : List α → List α
  | [] => [x]
  | y :: ys => if (cmp x y).isLT then y :: insertDown cmp x ys else x :: y :: ys

/-- Puts some elements, one after the other, into a list sorted upwards. -/
def insertAll {α : Type u} (cmp : α → α → Ordering) (sorted xs : List α) : List α :=
  (xs.foldl (fun down x => insertDown cmp x down) sorted.reverse).reverse

/-- The elements in ascending order; equal ones stay in their order. -/
def insertionSort {α : Type u} (cmp : α → α → Ordering) (xs : List α) : List α :=
  insertAll cmp [] xs

end RecordQuery
