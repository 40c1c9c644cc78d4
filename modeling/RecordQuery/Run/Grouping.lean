import RecordQuery.LeveledList
import RecordQuery.Select.Query

/-!
# `RecordQuery.Run.Grouping`: groups and aggregates

Records are gathered into groups by the values of the grouping fields: all of them into one
group when there is no such field, by the value itself for one field, and by the joined texts
of the values for several. Each group becomes one row, in the order in which the groups were
first seen.
-/

set_option autoImplicit false

namespace RecordQuery

/-- What tells groups apart. -/
inductive GroupKey where
  /-- The only group of a query without grouping fields. -/
  | all
  /-- The value of the only grouping field. -/
  | single (value : Value)
  /-- The texts of the values of several grouping fields, joined by commas. -/
  | joined (text : String)

namespace GroupKey

/-- The order of group keys. -/
def compare : GroupKey → GroupKey → Ordering
  | all, all => .eq
  | single a, single b => a.compare b
  | joined a, joined b => Ord.compare a b
  | all, _ => .lt
  | single _, all => .gt
  | single _, joined _ => .lt
  | joined _, _ => .gt

/-- The group of a record with the given values in the grouping fields. -/
def ofValues : List Value → GroupKey
  | [] => all
  | [value] => single value
  | values => joined (",".intercalate (values.map Value.keyText))

end GroupKey

/-- The slot of each group in the list of groups, in ascending order of keys. -/
abbrev GroupIndex := LeveledList (GroupKey × Nat)

namespace GroupIndex

/-- The slot of a group. -/
def get? (key : GroupKey) (index : GroupIndex) : Option Nat :=
  (index.find? fun (k, _) => key.compare k).map (·.2)

/-- Notes the slot of a new group. -/
def insert (key : GroupKey) (slot : Nat) (index : GroupIndex) : GroupIndex :=
  index.insertAt (index.locate fun (k, _) => key.compare k).index (key, slot)

end GroupIndex

/-- The sum of two integers, if it is one of 64 bits. -/
def addChecked? (a b : Int64) : Option Int64 :=
  let sum := a.toInt + b.toInt
  if Int64.minValue.toInt ≤ sum ∧ sum ≤ Int64.maxValue.toInt then some (Int64.ofInt sum)
  else none

/-- What the values fed so far amount to. -/
structure Accumulator where
  /-- The rows. -/
  rows : Nat
  /-- The values other than null. -/
  nonNull : Nat
  /-- The numbers. -/
  numeric : Nat
  /-- The sum of the numbers, while they are integers and it fits. -/
  intSum : Option Int64
  /-- The sum of the numbers, rounded at every step. -/
  floatSum : Binary64
  /-- The smallest value. -/
  min : Option Value
  /-- The largest value. -/
  max : Option Value
deriving Repr

namespace Accumulator

/-- Nothing fed yet. -/
def empty : Accumulator := ⟨0, 0, 0, some 0, .zero, none, none⟩

/-- The integer sum with one more number. Once lost it stays lost. -/
def addToInt (sum : Option Int64) (value : Value) : Option Int64 :=
  match value, sum with
  | .int n, some total => addChecked? total n
  | _, _ => none

/-- Adds a value that is not null. -/
def addValue (acc : Accumulator) (value : Value) : Accumulator :=
  let counted := { acc with nonNull := acc.nonNull + 1 }
  let summed := match value.number? with
    | none => counted
    | some number =>
        { counted with
          numeric := acc.numeric + 1
          floatSum := acc.floatSum.add number
          intSum := addToInt acc.intSum value }
  { summed with
    min := some (match acc.min with
      | none => value
      | some m => if (value.compare m).isLT then value else m)
    max := some (match acc.max with
      | none => value
      | some m => if (value.compare m).isGT then value else m) }

/-- Adds a row, with its value where the aggregate has a field. -/
def feed (acc : Accumulator) (value : Option Value) : Accumulator :=
  let counted := { acc with rows := acc.rows + 1 }
  match value with
  | none => counted
  | some v => if v.isNull then counted else counted.addValue v

/-- The value of an aggregate. A sum of integers that no longer fits is given rounded. -/
def result (acc : Accumulator) (fn : AggregateFn) (countsRows : Bool) : Value :=
  match fn with
  | .count => .int (Int64.ofNat (if countsRows then acc.rows else acc.nonNull))
  | .sum =>
      if acc.numeric = 0 then .null
      else match acc.intSum with
        | some sum => .int sum
        | none => .float acc.floatSum
  | .min => acc.min.getD .null
  | .max => acc.max.getD .null
  | .avg =>
      if acc.numeric = 0 then .null
      else .float (acc.floatSum.div (Binary64.ofInt acc.numeric))

end Accumulator

/-- The state of one column of a group. -/
inductive Slot where
  /-- A plain column: its value on the first record of the group. -/
  | expr (value : Option Value)
  /-- An aggregate. -/
  | aggregate (acc : Accumulator)
deriving Repr

/-- The state of one group. -/
structure GroupState where
  /-- The first record as a row, for queries without columns. -/
  firstRow : Option Row
  /-- The columns. -/
  slots : List Slot
deriving Repr

/-- The groups seen so far. -/
structure Grouping where
  /-- The slots of the groups. -/
  index : GroupIndex
  /-- The groups, in the order in which they were first seen. -/
  groups : List GroupState

namespace Grouping

/-- No group yet. -/
def empty : Grouping := ⟨.empty, []⟩

/-- The state of a column before its first record. -/
def freshSlot : Projection → Slot
  | .expr _ _ => .expr none
  | .aggregate _ _ _ => .aggregate .empty

/-- The state of a group before its first record. -/
def freshState (projections : List Projection) : GroupState :=
  ⟨none, projections.map freshSlot⟩

/-- The state of a column after one more record. -/
def feedSlot (scope : Scope) (record : Record) (projection : Projection) (slot : Slot) : Slot :=
  match projection, slot with
  | .expr operand _, .expr none => .expr (some (operand.resolve scope record))
  | .aggregate _ field _, .aggregate acc =>
      .aggregate (acc.feed (field.map fun chain => chain.resolve scope.load record))
  | _, slot => slot

/-- The state of a group after one more record. -/
def feedState (projections : List Projection) (scope : Scope) (record : Record)
    (state : GroupState) : GroupState :=
  { firstRow :=
      if projections.isEmpty then some (state.firstRow.getD (Row.ofRecord record))
      else state.firstRow
    slots := List.zipWith (feedSlot scope record) projections state.slots }

/-- The group that a record belongs to. -/
def keyOf (query : SelectQuery) (scope : Scope) (record : Record) : GroupKey :=
  .ofValues (query.groupBy.map fun chain => chain.resolve scope.load record)

/-- Gathers one more record. -/
def accept (grouping : Grouping) (query : SelectQuery) (scope : Scope) (record : Record) :
    Grouping :=
  let key := keyOf query scope record
  let feed := feedState query.projections scope record
  match grouping.index.get? key with
  | some slot => { grouping with groups := grouping.groups.modify slot feed }
  | none =>
      { index := grouping.index.insert key grouping.groups.length
        groups := grouping.groups ++ [feed (freshState query.projections)] }

/-- The value of a column of a group. -/
def columnValue (projection : Projection) (slot : Slot) : Value :=
  match projection, slot with
  | _, .expr value => value.getD .null
  | .aggregate fn field _, .aggregate acc => acc.result fn field.isNone
  | .expr _ _, .aggregate _ => .null

/-- The row of a group. -/
def rowOf (projections : List Projection) (state : GroupState) : Row :=
  match state.firstRow with
  | some row => row
  | none =>
      .computed (Fields.ofList (List.zipWith
        (fun projection slot => (projection.outputName, columnValue projection slot))
        projections state.slots))

/-- The rows of the groups. Aggregates without grouping fields give one row even where there
was no record. -/
def finish (grouping : Grouping) (query : SelectQuery) : List Row :=
  let groups :=
    if grouping.groups.isEmpty && query.groupBy.isEmpty && query.hasAggregates then
      [freshState query.projections]
    else grouping.groups
  groups.map (rowOf query.projections)

end Grouping

end RecordQuery
