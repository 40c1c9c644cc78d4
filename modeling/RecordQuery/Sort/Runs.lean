import RecordQuery.Sort.Insertion

/-!
# `RecordQuery.Sort.Runs`: sorting by merging runs

A long list is cut into runs: those that are in order already, and otherwise pieces of a fixed
length. Neighbouring runs are merged in the order of a balanced tree over the list. Runs that
were not in order stay unsorted until they meet a sorted one, and are then sorted by
partitioning around pivots; short pieces are sorted in two halves that are merged from both
ends. A half begins with a few elements that are sorted at once; `lead` is how many these are
in a piece that is long enough.

In a total order every way of sorting that keeps ties in place gives the same list. In an
order that is not transitive the outcome depends on which elements are compared, and it is
this outcome that `runSort` lays down.
-/

set_option autoImplicit false

namespace RecordQuery

universe u

namespace Runs

variable {α : Type u}

/-! ## Short pieces -/

/-- The most elements of a short piece. -/
def pieceLimit : Nat := 32

/-- Two elements in order. -/
def sort2 (cmp : α → α → Ordering) (x y : α) : α × α := if (cmp y x).isLT then (y, x) else (x, y)

/-- Four elements in order, by five comparisons. -/
def sort4 (cmp : α → α → Ordering) (w x y z : α) : List α :=
  let (a, b) := sort2 cmp w x
  let (c, d) := sort2 cmp y z
  match (cmp c a).isLT, (cmp d b).isLT with
  | false, false => let (p, q) := sort2 cmp b c; [a, p, q, d]
  | false, true => let (p, q) := sort2 cmp c d; [a, p, q, b]
  | true, false => let (p, q) := sort2 cmp a b; [c, p, q, d]
  | true, true => let (p, q) := sort2 cmp a d; [c, p, q, b]

/-- Merges some steps of two lists from their front. Returns what was merged and what is left
of the lists. -/
def mergeFront (cmp : α → α → Ordering) : Nat → List α → List α → List α × List α × List α
  | steps + 1, x :: xs, y :: ys =>
      if (cmp y x).isLT then
        let (out, left, right) := mergeFront cmp steps (x :: xs) ys
        (y :: out, left, right)
      else
        let (out, left, right) := mergeFront cmp steps xs (y :: ys)
        (x :: out, left, right)
  | _, xs, ys => ([], xs, ys)

/-- Merges some steps of two lists from their back; all three lists are given and returned in
reverse. -/
def mergeBack (cmp : α → α → Ordering) : Nat → List α → List α → List α × List α × List α
  | steps + 1, x :: xs, y :: ys =>
      if (cmp y x).isLT then
        let (out, left, right) := mergeBack cmp steps xs (y :: ys)
        (x :: out, left, right)
      else
        let (out, left, right) := mergeBack cmp steps (x :: xs) ys
        (y :: out, left, right)
  | _, xs, ys => ([], xs, ys)

/-- Merges two sorted halves, the second at most one longer than the first: half of the steps
from the front and half from the back, with one element between them in an odd list. In an
order that contradicts itself the two ways may not meet; the halves then stay one after the
other. -/
def mergeHalves (cmp : α → α → Ordering) (left right : List α) : List α :=
  let steps := left.length
  let (front, left', right') := mergeFront cmp steps left right
  let (back, left'', _) := mergeBack cmp steps left.reverse right.reverse
  let unmerged := left'.length + left''.length
  if right.length = steps then
    if unmerged = steps then front ++ back.reverse else left ++ right
  else if unmerged = steps then front ++ right'.take 1 ++ back.reverse
  else if unmerged = steps + 1 then front ++ left'.take 1 ++ back.reverse
  else left ++ right

/-- The first elements of a half in order: four by `sort4`, eight as two fours that are
merged. -/
def sortFirst (cmp : α → α → Ordering) : List α → List α
  | [w, x, y, z] => sort4 cmp w x y z
  | [a, b, c, d, w, x, y, z] => mergeHalves cmp (sort4 cmp a b c d) (sort4 cmp w x y z)
  | xs => insertionSort cmp xs

/-- How many elements the halves of a piece begin with. -/
def firstLength (lead length : Nat) : Nat :=
  if 16 ≤ length then lead else if 8 ≤ length then 4 else 1

/-- One half of a piece in order: the first elements at once, the others by insertion. -/
def sortHalf (cmp : α → α → Ordering) (first : Nat) (xs : List α) : List α :=
  insertAll cmp (sortFirst cmp (xs.take first)) (xs.drop first)

/-- A short piece in order. -/
def sortPiece (cmp : α → α → Ordering) (lead : Nat) (xs : List α) : List α :=
  let half := xs.length / 2
  let first := firstLength lead xs.length
  mergeHalves cmp (sortHalf cmp first (xs.take half)) (sortHalf cmp first (xs.drop half))

/-! ## Runs -/

/-- Consecutive elements, and whether they are known to be in order. -/
structure Run (α : Type u) where
  /-- The elements. -/
  items : List α
  /-- Whether they are in order. -/
  sorted : Bool

/-- The longest run at the front of a list, given the element before the rest: how many of the
rest belong to it. Consecutive elements of a run compare as `keep` says. -/
def runLength (keep : α → α → Bool) : α → List α → Nat
  | _, [] => 0
  | x, y :: ys => if keep x y then runLength keep y ys + 1 else 0

/-- The longest run at the front of a list, ascending or strictly descending, in ascending
order, and the rest. -/
def frontRun (cmp : α → α → Ordering) : List α → List α × List α
  | x :: y :: ys =>
      let descending := (cmp y x).isLT
      let length := runLength (fun a b => (cmp b a).isLT == descending) x (y :: ys) + 1
      let run := (x :: y :: ys).take length
      (if descending then run.reverse else run, (x :: y :: ys).drop length)
  | xs => (xs, [])

/-- Takes the next run off a list that is not empty. A run that is in order has to be long
enough; otherwise a piece is taken, which is sorted at once or left as it is. -/
def takeRun (cmp : α → α → Ordering) (lead goodLength : Nat) (eager : Bool) (xs : List α) :
    Run α × List α :=
  let (run, rest) := frontRun cmp xs
  if goodLength ≤ run.length then (⟨run, true⟩, rest)
  else if eager then (⟨sortPiece cmp lead (xs.take pieceLimit), true⟩, xs.drop pieceLimit)
  else (⟨xs.take goodLength, false⟩, xs.drop goodLength)

/-- Merges two sorted lists, from the front when the first is not longer than the second,
otherwise from the back. -/
def mergeSorted (cmp : α → α → Ordering) (left right : List α) : List α :=
  if left.length ≤ right.length then List.merge left right fun x y => !(cmp y x).isLT
  else (List.merge right.reverse left.reverse fun y x => !(cmp y x).isLT).reverse

namespace Run

/-- The elements in order, given how to sort them. -/
def order (sort : List α → List α) (run : Run α) : List α :=
  if run.sorted then run.items else sort run.items

/-- One run of two neighbours. Two unsorted ones stay unsorted. -/
def join (cmp : α → α → Ordering) (sort : List α → List α) (left right : Run α) : Run α :=
  if left.sorted || right.sorted then
    ⟨mergeSorted cmp (left.order sort) (right.order sort), true⟩
  else ⟨left.items ++ right.items, false⟩

end Run

/-- How deep in a balanced tree over `length` elements the border between two runs lies, which
begin at `first` and `second` and end at `last`. -/
def borderDepth (length first second last : Nat) : Nat :=
  let scale := (Nat.pow 2 62 + length - 1) / length
  let border := (scale * (first + second)) ^^^ (scale * (second + last))
  if border = 0 then 64 else 63 - border.log2

/-- Joins the last run with those before it whose borders lie at least as deep as the given
one. The runs are listed from the last to the first, each with the depth of the border behind
it. -/
def joinDeeper (cmp : α → α → Ordering) (sort : List α → List α) (depth : Nat) :
    List (Run α × Nat) → Run α → List (Run α × Nat) × Run α
  | [], last => ([], last)
  | (run, border) :: before, last =>
      if depth ≤ border then joinDeeper cmp sort depth before (run.join cmp sort last)
      else ((run, border) :: before, last)

/-- Takes the runs off the rest of a list of `length` elements, of which the first `taken` are
in the runs so far, and joins them. -/
def joinRuns (cmp : α → α → Ordering) (sort : List α → List α) (lead length goodLength : Nat)
    (eager : Bool) : Nat → Nat → List (Run α × Nat) → Run α → List α → Run α
  | rounds + 1, taken, before, last, x :: rest =>
      let (next, rest) := takeRun cmp lead goodLength eager (x :: rest)
      let depth := borderDepth length (taken - last.items.length) taken (taken + next.items.length)
      let (before, joined) := joinDeeper cmp sort depth before last
      joinRuns cmp sort lead length goodLength eager rounds (taken + next.items.length)
        ((joined, depth) :: before) next rest
  | _, _, before, last, _ => (joinDeeper cmp sort 0 before last).2

/-- About the square root of a number. -/
def roughRoot (n : Nat) : Nat :=
  let shift := (1 + n.log2) / 2
  (Nat.pow 2 shift + n / Nat.pow 2 shift) / 2

/-- Sorts a list by its runs, given how to sort what is in no order. -/
def sortRuns (cmp : α → α → Ordering) (sort : List α → List α) (lead : Nat) (eager : Bool)
    (xs : List α) : List α :=
  let length := xs.length
  let goodLength := if length ≤ 4096 then min (length - length / 2) 64 else roughRoot length
  let (first, rest) := takeRun cmp lead goodLength eager xs
  (joinRuns cmp sort lead length goodLength eager length first.items.length [] first rest).order
    sort

/-! ## Partitions -/

/-- The index of the median of three elements. -/
def median3 (less : Nat → Nat → Bool) (a b c : Nat) : Nat :=
  let x := less a b
  if x == less a c then (if less b c != x then c else b) else a

/-- The index of a median of three groups of `n` elements, which begin at the given indexes;
a large group is represented by such a median of its own. -/
def medianOfGroups (less : Nat → Nat → Bool) (n a b c : Nat) : Nat :=
  if 8 ≤ n then
    let m := n / 8
    let inner (i : Nat) : Nat := medianOfGroups less m i (i + m * 4) (i + m * 7)
    median3 less (inner a) (inner b) (inner c)
  else median3 less a b c
termination_by n
decreasing_by omega

/-- The index of the pivot of a list that is not short. -/
def pivotIndex (cmp : α → α → Ordering) (xs : List α) : Nat :=
  let items := xs.toArray
  let less (i j : Nat) : Bool :=
    match items[i]?, items[j]? with
    | some x, some y => (cmp x y).isLT
    | _, _ => false
  let n := xs.length / 8
  if xs.length < 64 then median3 less 0 (n * 4) (n * 7)
  else medianOfGroups less n 0 (n * 4) (n * 7)

/-- The elements that belong to the left and those that belong to the right, in their order;
where the pivot belongs is given. -/
def partAround (pivot : Nat) (pivotLeft : Bool) (isLeft : α → Bool) (xs : List α) :
    List α × List α :=
  let marked := xs.zipIdx.map fun (x, i) => (x, if i = pivot then pivotLeft else isLeft x)
  let (left, right) := marked.partition (·.2)
  (left.map (·.1), right.map (·.1))

/-- Sorts a list by partitions, at most `limit` of them inside one another; after that by
runs. `above` is the pivot that no element is smaller than, if there is one: when the next
pivot is not larger either, the elements equal to it are in their place already. -/
def sortByPivots (cmp : α → α → Ordering) (lead : Nat) : Nat → Option α → List α → List α
  | limit, above, xs =>
      if xs.length ≤ pieceLimit then sortPiece cmp lead xs
      else
        match limit with
        | 0 => sortRuns cmp id lead true xs
        | limit + 1 =>
            let index := pivotIndex cmp xs
            match xs[index]? with
            | none => xs
            | some pivot =>
                let (smaller, others) := partAround index false (fun x => (cmp x pivot).isLT) xs
                if above.any (fun a => !(cmp a pivot).isLT) || smaller.isEmpty then
                  let (equal, larger) :=
                    partAround index true (fun x => !(cmp pivot x).isLT) xs
                  equal ++ sortByPivots cmp lead limit none larger
                else
                  sortByPivots cmp lead limit above smaller ++
                    sortByPivots cmp lead limit (some pivot) others

/-- Sorts a list by partitions. -/
def sortUnordered (cmp : α → α → Ordering) (lead : Nat) (xs : List α) : List α :=
  sortByPivots cmp lead (2 * xs.length.log2) none xs

end Runs

/-- The elements in ascending order by merging runs. -/
def runSort {α : Type u} (cmp : α → α → Ordering) (lead : Nat) (xs : List α) : List α :=
  Runs.sortRuns cmp (Runs.sortUnordered cmp lead) lead (xs.length ≤ 2 * Runs.pieceLimit) xs

end RecordQuery
