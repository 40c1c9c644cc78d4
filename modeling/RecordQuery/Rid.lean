import RecordQuery.Failure

/-!
# `RecordQuery.Rid`: record identities

A record lives at a position of a cluster. Its identity is written `#cluster:position`.
The order is cluster first, so that walking the clusters upwards, and each cluster's
positions upwards, visits the records in ascending order.
-/

set_option autoImplicit false

namespace RecordQuery

/-- The number of a cluster. Numbers read from text are below `2 ^ 32`. The numbers that a store
gives to new clusters are not bounded here: a counter of 32 bits would overflow at the cluster with
the number `2 ^ 32`, and no store has room for the clusters before it. -/
abbrev ClusterId := Nat

/-- The identity of a record: its cluster and its position there. -/
structure Rid where
  /-- The cluster that holds the record. -/
  cluster : ClusterId
  /-- The position inside the cluster. -/
  position : Nat
deriving DecidableEq, Repr, Inhabited

namespace Rid

/-- Cluster first, then position. -/
def compare (a b : Rid) : Ordering :=
  (Ord.compare a.cluster b.cluster).then (Ord.compare a.position b.position)

instance : Ord Rid := ⟨compare⟩

/-- Whether `a` comes before `b` or equals it. -/
def le (a b : Rid) : Bool := (compare a b).isLE

/-- The larger of two identities, the second one when they are equal. -/
def max (a b : Rid) : Rid := if le a b then b else a

/-- The smaller of two identities, the first one when they are equal. -/
def min (a b : Rid) : Rid := if le a b then a else b

/-- The written form `#cluster:position`. -/
def text (r : Rid) : String :=
  "#" ++ toString r.cluster ++ ":" ++ toString r.position

/-- The value of a non-empty run of decimal digits, `none` for anything else. -/
def digitsValue? : List Char → Option Nat
  | [] => none
  | c :: cs =>
      (c :: cs).foldl
        (fun acc d => acc.bind fun n => if d.isDigit then some (10 * n + (d.toNat - 48)) else none)
        (some 0)

/-- A decimal number below `bound`; one plus sign may stand before the digits. -/
def number? (bound : Nat) (cs : List Char) : Option Nat :=
  let digits := match cs with
    | '+' :: rest => rest
    | _ => cs
  (digitsValue? digits).filter (· < bound)

/-- The text before the first colon and the text after it. -/
def splitColon : List Char → Option (List Char × List Char)
  | [] => none
  | c :: cs => if c == ':' then some ([], cs) else (splitColon cs).map fun (a, b) => (c :: a, b)

/-- Reads a written identity; the leading `#` may be missing. -/
def parse (s : String) : Except Failure Rid :=
  let body := match s.toList with
    | '#' :: rest => rest
    | cs => cs
  match splitColon body with
  | none => .error (.invalid .ridShape)
  | some (clusterText, positionText) =>
    match number? UInt32.size clusterText with
    | none => .error (.invalid .ridCluster)
    | some cluster =>
      match number? UInt64.size positionText with
      | none => .error (.invalid .ridPosition)
      | some position => .ok ⟨cluster, position⟩

end Rid

/-- Inclusive bounds on record identities, a hint for scans. -/
structure RidRange where
  /-- The lowest identity of interest. -/
  lowest : Option Rid
  /-- The highest identity of interest. -/
  highest : Option Rid
deriving DecidableEq, Repr

namespace RidRange

/-- The range without bounds. -/
def all : RidRange := ⟨none, none⟩

/-- Whether the identity lies within the bounds. -/
def contains (range : RidRange) (rid : Rid) : Bool :=
  range.lowest.all (fun low => low.le rid) && range.highest.all (fun high => rid.le high)

/-- Whether the range can hold a record of the cluster. -/
def touches (range : RidRange) (cluster : ClusterId) : Bool :=
  range.lowest.all (fun low => low.cluster ≤ cluster) &&
    range.highest.all (fun high => cluster ≤ high.cluster)

/-- Whether neither bound is set. -/
def isUnbounded (range : RidRange) : Bool :=
  range.lowest.isNone && range.highest.isNone

/-- The range with its lower bound raised to `rid`, never lowered. -/
def raiseLowest (range : RidRange) (rid : Rid) : RidRange :=
  { range with lowest := some (match range.lowest with
      | none => rid
      | some low => low.max rid) }

/-- The range with its upper bound lowered to `rid`, never raised. -/
def lowerHighest (range : RidRange) (rid : Rid) : RidRange :=
  { range with highest := some (match range.highest with
      | none => rid
      | some high => high.min rid) }

end RidRange

end RecordQuery
