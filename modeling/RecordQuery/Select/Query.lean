import RecordQuery.Condition.Basic
import RecordQuery.Options

/-!
# `RecordQuery.Select.Query`: SELECT statements as data

A `SelectQuery` has a target, where rows come from, and clauses that filter, bind, shape,
order and page them.
-/

set_option autoImplicit false

namespace RecordQuery

/-- Where rows come from. -/
inductive Target where
  /-- The records of a class; a polymorphic target takes in its subclasses. -/
  | ofClass (name : String) (polymorphic : Bool)
  /-- The records of some clusters. -/
  | clusters (ids : List ClusterId)
  /-- The entries of an index. -/
  | index (name : String)
  /-- Some records, by identity. -/
  | records (rids : List Rid)
  /-- The records that a variable of the context links to. -/
  | linked (name : String)
deriving DecidableEq, Repr

/-- The written form of a target. -/
def Target.text : Target → String
  | ofClass name polymorphic => if polymorphic then name else name ++ " (exact)"
  | clusters ids => "cluster:[" ++ ", ".intercalate (ids.map fun id => toString id) ++ "]"
  | index name => "index:" ++ name
  | records rids => "[" ++ ", ".intercalate (rids.map Rid.text) ++ "]"
  | linked name => "$" ++ name

/-- The direction of an order. -/
inductive Direction where
  | asc
  | desc
deriving DecidableEq, Repr

/-- The keyword of a direction. -/
def Direction.text : Direction → String
  | asc => "ASC"
  | desc => "DESC"

/-- One item of ORDER BY. -/
structure OrderItem where
  /-- A field, an attribute, or the name of a column. -/
  field : FieldChain
  /-- The direction. -/
  direction : Direction
deriving DecidableEq, Repr

/-- Compares two ORDER BY keys, item by item, each in its direction. A missing component
counts as equal. -/
def compareKeys : List OrderItem → List Value → List Value → Ordering
  | item :: items, a :: as, b :: bs =>
      let here := match item.direction with
        | .asc => a.compare b
        | .desc => (a.compare b).swap
      here.then (compareKeys items as bs)
  | _, _, _ => .eq

/-- Aggregate functions. -/
inductive AggregateFn where
  | count
  | sum
  | min
  | max
  | avg
deriving DecidableEq, Repr

/-- The name of an aggregate function, which is also its default column name. -/
def AggregateFn.text : AggregateFn → String
  | count => "count"
  | sum => "sum"
  | min => "min"
  | max => "max"
  | avg => "avg"

/-- The aggregate function that has the name. -/
def AggregateFn.ofText? (name : String) : Option AggregateFn :=
  [count, sum, min, max, avg].find? fun fn => fn.text == name

/-- An aggregate function is read back from its name. -/
theorem AggregateFn.ofText?_text (fn : AggregateFn) : ofText? fn.text = some fn := by
  cases fn <;> decide

/-- One column of the result. -/
inductive Projection where
  /-- The value of an operand. -/
  | expr (operand : Operand) (name : String)
  /-- An aggregate over a field of a group; no field means the rows themselves. -/
  | aggregate (fn : AggregateFn) (field : Option FieldChain) (name : String)
deriving Repr

namespace Projection

/-- The column of a field, named after its last segment where no name is given. -/
def ofField (chain : FieldChain) (name : Option String) : Projection :=
  expr (.field chain) (name.getD chain.last)

/-- The column of an aggregate, named after its function where no name is given. -/
def ofAggregate (fn : AggregateFn) (field : Option FieldChain) (name : Option String) :
    Projection :=
  aggregate fn field (name.getD fn.text)

/-- The name of the column. -/
def outputName : Projection → String
  | expr _ name | aggregate _ _ name => name

/-- Whether the column is an aggregate. -/
def isAggregate : Projection → Bool
  | aggregate _ _ _ => true
  | _ => false

end Projection

/-- A SELECT statement. -/
structure SelectQuery where
  /-- Where rows come from. -/
  target : Target
  /-- WHERE. -/
  filter : Option Condition
  /-- LET, in order; a binding sees those before it. -/
  lets : List (String × Operand)
  /-- The columns; without any the whole record is delivered. -/
  projections : List Projection
  /-- ORDER BY. -/
  orderBy : List OrderItem
  /-- GROUP BY. -/
  groupBy : List FieldChain
  /-- LIMIT; `-1` is none. -/
  limit : Int
  /-- SKIP. -/
  skip : Int
  /-- UNWIND. -/
  unwind : List String
  /-- EXPAND. -/
  expand : Option FieldChain
  /-- Whether a parallel scan is welcome. -/
  parallel : Bool
  /-- TIMEOUT, in milliseconds. -/
  timeout : Option (Nat × TimeoutStrategy)
deriving Repr

namespace SelectQuery

/-- The query over a target, with every clause empty. -/
def ofTarget (target : Target) : SelectQuery :=
  ⟨target, none, [], [], [], [], -1, 0, [], none, false, none⟩

/-- Whether some column is an aggregate. -/
def hasAggregates (query : SelectQuery) : Bool := query.projections.any Projection.isAggregate

/-- Whether records are gathered into groups. -/
def isGrouping (query : SelectQuery) : Bool := !query.groupBy.isEmpty || query.hasAggregates

/-- LIMIT as a number of rows; `none` for no limit. -/
def limitCount? (query : SelectQuery) : Option Nat :=
  if query.limit < 0 then none else some query.limit.toNat

/-- SKIP as a number of rows. -/
def skipCount (query : SelectQuery) : Nat := query.skip.toNat

/-- Whether ORDER BY is `@rid` alone. -/
def isRidOnlySort (query : SelectQuery) : Bool :=
  match query.orderBy with
  | [item] => !item.field.isLong && item.field.first == ridAttribute
  | _ => false

/-- Rejects clauses that can never run. -/
def validate (query : SelectQuery) : Except Failure Unit :=
  if query.limit == 0 || query.limit < -1 then
    .error (.query (.invalidLimit query.limit))
  else if query.skip < 0 then .error (.query (.invalidSkip query.skip))
  else if query.expand.isSome && !query.projections.isEmpty then
    .error (.query .expandWithProjections)
  else .ok ()

end SelectQuery

end RecordQuery
