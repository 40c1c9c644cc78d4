/-!
# `RecordQuery.LeveledList`: ordered lists that are searched by levels

The elements stand in one ordered list, and each of them has a level. The levels lay a B-tree
over the list. Between two elements of higher levels the elements of level zero form a leaf,
and those of level `n + 1` form a node, whose children are the runs of lower levels that they
separate. A node holds at most eleven elements and, below the top, at least five.

A search looks at the top level first, from the left, and goes on in the run in which the
element has to stand. In a total order the levels make no difference to what is found. The
order of values is not transitive, though: beyond `2 ^ 53` one floating-point number equals
several integers. Which of those a search finds depends on the levels, and so every change of
the list keeps them as the nodes of the tree have to be kept.
-/

set_option autoImplicit false

namespace RecordQuery

universe u

/-- A list whose elements have levels. -/
structure LeveledList (α : Type u) where
  /-- The elements, in order. -/
  elements : List α
  /-- The levels of the elements; missing ones are zero. -/
  levels : List Nat
deriving Repr

/-- What a search comes to. -/
inductive Place where
  /-- The element stands at this index. -/
  | found (index : Nat)
  /-- There is no such element; it would stand at this index. -/
  | vacant (index : Nat)
deriving DecidableEq, Repr

/-- Where the element stands or would stand. -/
def Place.index : Place → Nat
  | found i | vacant i => i

namespace LeveledList

/-! ## Levels

A change of the list happens at a gap between its elements. The levels to the left of the gap
are listed from the gap outwards, as are those to the right. -/

/-- The most elements of a node. -/
def nodeCapacity : Nat := 11

/-- The fewest elements of a node below the top. -/
def nodeMinimum : Nat := 5

/-- How many elements of the node around a gap stand on one side of it. -/
def countBeside (level : Nat) (side : List Nat) : Nat :=
  (side.takeWhile (· ≤ level)).count level

/-- Parts a side at the element of the level that has `skip` others of the level before it,
and leaves that element out. -/
def partAt (level : Nat) : Nat → List Nat → List Nat × List Nat
  | _, [] => ([], [])
  | skip, l :: ls =>
      if l == level then
        match skip with
        | 0 => ([], ls)
        | skip + 1 =>
            let (near, far) := partAt level skip ls
            (l :: near, far)
      else
        let (near, far) := partAt level skip ls
        (l :: near, far)

/-- The element that leaves a node of twelve for the level above, given where the newest one
stands: of the two in the middle the one nearer to the newest, but not the newest itself. -/
def raisedFrom (newest : Nat) : Nat :=
  if newest < 5 || newest == 6 then 5 else 6

/-- The levels after an element of the given level has come into the gap. A node with too
many elements raises one of them, which is then new in the node above. -/
def fill : Nat → Nat → List Nat → List Nat → List Nat
  | 0, level, left, right => left.reverse ++ level :: right
  | rounds + 1, level, left, right =>
      let newest := countBeside level left
      if newest + countBeside level right < nodeCapacity then left.reverse ++ level :: right
      else
        let raised := raisedFrom newest
        if raised < newest then
          let (near, far) := partAt level (newest - 1 - raised) left
          fill rounds (level + 1) far (near.reverse ++ level :: right)
        else
          let (near, far) := partAt level (raised - newest - 1) right
          fill rounds (level + 1) (near.reverse ++ level :: left) far

/-- How a node gets elements from the next node on one side. -/
inductive Refill where
  /-- The two nodes and the element between them became one node. -/
  | merged (side : List Nat)
  /-- The element between them came down, and the nearest one of the next node took its
  place. -/
  | borrowed (side : List Nat)

/-- Gets elements from the next node on one side, where there is one under the same parent,
for a node with the given number of elements. The nodes merge if they fit into one. -/
def refillFrom (level size : Nat) (side : List Nat) : Option Refill :=
  let near := side.takeWhile (· ≤ level)
  match side.dropWhile (· ≤ level) with
  | [] => none
  | separator :: sibling =>
      if separator != level + 1 then none
      else if countBeside level sibling + 1 + size ≤ nodeCapacity then
        some (.merged (near ++ level :: sibling))
      else
        let (lower, far) := partAt level 0 sibling
        some (.borrowed (near ++ level :: (lower ++ (level + 1) :: far)))

/-- The levels after the node around the gap has lost an element. A node with too few
elements gets some from the left or, as the first child, from the right; after a merge the
node above has lost one. -/
def close : Nat → Nat → List Nat → List Nat → List Nat
  | 0, _, left, right => left.reverse ++ right
  | rounds + 1, level, left, right =>
      let size := countBeside level left + countBeside level right
      if nodeMinimum ≤ size then left.reverse ++ right
      else
        match refillFrom level size left with
        | some (.merged left) => close rounds (level + 1) left right
        | some (.borrowed left) => left.reverse ++ right
        | none =>
            match refillFrom level size right with
            | some (.merged right) => close rounds (level + 1) left right
            | some (.borrowed right) => left.reverse ++ right
            | none => left.reverse ++ right

/-- The levels after a new element at an index. New elements come into leaves. -/
def levelsInserting (levels : List Nat) (i : Nat) : List Nat :=
  fill (levels.length + 1) 0 (levels.take i).reverse (levels.drop i)

/-- The levels without the element at an index. An element of a higher level is replaced by
the one before it, which leaves its leaf. -/
def levelsErasing (levels : List Nat) (i : Nat) : List Nat :=
  let leaving := if levels.getD i 0 = 0 then i else i - 1
  close levels.length 0 (levels.take leaving).reverse (levels.drop (leaving + 1))

/-! ## The list -/

variable {α : Type u}

/-- The list without elements. -/
def empty : LeveledList α := ⟨[], []⟩

/-- The elements with their levels. -/
def label : List Nat → List α → List (Nat × α)
  | _, [] => []
  | [], x :: xs => (0, x) :: label [] xs
  | l :: ls, x :: xs => (l, x) :: label ls xs

/-- Searches a run, whose first element has the index `start`, from the given level down.
`probe` tells how the element looked for compares to another one. -/
def search (probe : α → Ordering) (level start : Nat) (run : List (Nat × α)) : Place :=
  let passed := run.takeWhile fun (l, x) => l < level || (probe x).isGT
  let stop := start + passed.length
  if run[passed.length]?.any fun (_, x) => probe x == .eq then .found stop
  else
    match level with
    | 0 => .vacant stop
    | lower + 1 =>
        let child := (passed.reverse.takeWhile fun (l, _) => l ≤ lower).reverse
        search probe lower (stop - child.length) child

/-- Searches the list from its top level down. -/
def locate (list : LeveledList α) (probe : α → Ordering) : Place :=
  search probe (list.levels.foldl max 0) 0 (label list.levels list.elements)

/-- The element found by a search. -/
def find? (list : LeveledList α) (probe : α → Ordering) : Option α :=
  match list.locate probe with
  | .found i => list.elements[i]?
  | .vacant _ => none

/-- Changes the element at an index. -/
def modifyAt (list : LeveledList α) (i : Nat) (change : α → α) : LeveledList α :=
  { list with elements := list.elements.modify i change }

/-- Inserts an element at an index. -/
def insertAt (list : LeveledList α) (i : Nat) (x : α) : LeveledList α :=
  ⟨list.elements.insertIdx i x, levelsInserting list.levels i⟩

/-- Erases the element at an index. -/
def eraseAt (list : LeveledList α) (i : Nat) : LeveledList α :=
  ⟨list.elements.eraseIdx i, levelsErasing list.levels i⟩

/-- The elements from the one found, or from where it would stand, to the end. -/
def onwards (list : LeveledList α) (probe : α → Ordering) : List α :=
  list.elements.drop (list.locate probe).index

end LeveledList

end RecordQuery
