import RecordQuery.Run.Basic
import RecordQuery.Run.Grouping

/-!
# `RecordQuery.Run.Pipeline`: from records to delivered rows

Records that qualify are handed to a pipeline. When nothing needs all of them at once, each
becomes a row that goes straight to the sink. Otherwise they are kept, and grouped, sorted,
expanded, unwound and paged at the end. With a LIMIT the sort buffer is cut back to the rows
that can still be delivered, whenever it has grown by the slack of the settings.
-/

set_option autoImplicit false

namespace RecordQuery

/-- The column that shows an expanded value that is no record. -/
def expandColumn : String := "value"

/-- What a pipeline is set up for. -/
structure PipelineSetup where
  /-- The query. -/
  query : SelectQuery
  /-- Whether records come in the order asked for. -/
  orderSatisfied : Bool
  /-- The slack of the sort buffer. -/
  slack : Nat
  /-- The threshold of the hint on a missing LIMIT. -/
  hintThreshold : Nat

namespace PipelineSetup

/-- Whether the rows have yet to be sorted. -/
def sorts (setup : PipelineSetup) : Bool :=
  !setup.query.orderBy.isEmpty && !setup.orderSatisfied

/-- Whether EXPAND or UNWIND makes other rows out of the rows. -/
def reshapes (setup : PipelineSetup) : Bool :=
  setup.query.expand.isSome || !setup.query.unwind.isEmpty

/-- Whether every record goes straight to the sink. -/
def streams (setup : PipelineSetup) : Bool :=
  !setup.sorts && !setup.query.isGrouping && !setup.reshapes

/-- The number of rows kept when the sort buffer is cut back, where it is cut back at all. -/
def keep? (setup : PipelineSetup) : Option Nat :=
  match setup.query.limitCount? with
  | some limit =>
      if setup.sorts && !setup.query.isGrouping && !setup.reshapes then
        some (limit + 1 + setup.query.skipCount)
      else none
  | none => none

end PipelineSetup

/-- What a kept record contributes to the result. -/
inductive Payload where
  /-- A row. -/
  | row (row : Row)
  /-- A value to be expanded. -/
  | expand (value : Value)
deriving Repr

/-- A kept record. -/
structure Pending where
  /-- Its values for ORDER BY. -/
  key : List Value
  /-- What it contributes. -/
  payload : Payload
deriving Repr

/-- The state of a pipeline. -/
structure Pipeline where
  /-- The rows skipped so far, when streaming. -/
  skipped : Nat
  /-- The rows delivered so far. -/
  delivered : Nat
  /-- The kept records, the latest one first. -/
  buffer : List Pending
  /-- The groups. -/
  grouping : Grouping
  /-- Whether the hint on a missing LIMIT was given. -/
  hinted : Bool

/-- The pipeline before the first record. -/
def Pipeline.start : Pipeline := ⟨0, 0, [], .empty, false⟩

/-- The row of a record: its plain columns, or the whole record where the query has no
columns. Rows of an index target have no identity. -/
def SelectQuery.project (query : SelectQuery) (scope : Scope) (record : Record) : Row :=
  let identity := match query.target with
    | .index _ => none
    | _ => some record.rid
  if query.projections.isEmpty then ⟨identity, record.fields⟩
  else
    ⟨identity, Fields.ofList (query.projections.filterMap fun
      | .expr operand name => some (name, operand.resolve scope record)
      | .aggregate _ _ _ => none)⟩

/-- The value of an ORDER BY item: the column of that name where the row has one by its
projections, otherwise the field of the record. -/
def SelectQuery.sortValue (query : SelectQuery) (load : Rid → Option Record) (record : Record)
    (row : Option Row) (item : OrderItem) : Value :=
  let isColumn := !item.field.isLong &&
    query.projections.any fun p => p.outputName == item.field.first
  match isColumn, row with
  | true, some row => row.get item.field.first
  | _, _ => item.field.resolve load record

/-- The values of a record for ORDER BY. -/
def SelectQuery.sortKey (query : SelectQuery) (load : Rid → Option Record) (record : Record)
    (row : Option Row) : List Value :=
  query.orderBy.map (query.sortValue load record row)

/-- The rows of one expanded item: nothing for null, the record behind a link, otherwise the
value itself. -/
def expandItem (load : Rid → Option Record) : Value → List Row
  | .null => []
  | .link rid => ((load rid).map Row.ofRecord).toList
  | value => [.computed [(expandColumn, value)]]

/-- The rows of an expanded value: those of its items for a list. -/
def expandValue (load : Rid → Option Record) : Value → List Row
  | .list items => items.flatMap (expandItem load)
  | value => expandItem load value

/-- The rows that a row becomes when a list in one column is unwound: one per item, and one
with null for an empty list. -/
def unwindRow (column : String) (row : Row) : List Row :=
  match row.fields.get? column with
  | some (.list []) => [{ row with fields := row.fields.insert column .null }]
  | some (.list items) =>
      items.map fun item => { row with fields := row.fields.insert column item }
  | _ => [row]

/-- Unwinds columns, one after the other. -/
def unwindRows (columns : List String) (rows : List Row) : List Row :=
  columns.foldl (fun rows column => rows.flatMap (unwindRow column)) rows

/-- The values of a group's row for ORDER BY. -/
def rowSortKey (order : List OrderItem) (row : Row) : List Value :=
  order.map fun item => row.get item.field.text

namespace Pipeline

/-- The kept records in the order asked for; ties stay in the order of arrival. -/
def sortPending (order : List OrderItem) (pending : List Pending) : List Pending :=
  stableSort (fun a b => compareKeys order a.key b.key) pending

/-- Delivers a row, and says whether another one is wanted and allowed by LIMIT. -/
def deliver (env : Env) (setup : PipelineSetup) (pipeline : Pipeline) (row : Row) :
    Exec (Bool × Pipeline) := do
  let delivered := pipeline.delivered + 1
  let limit := setup.query.limitCount?
  let hints := limit.isNone && !pipeline.hinted && setup.hintThreshold < delivered
  if hints then Exec.warn (.manyRows delivered setup.hintThreshold)
  let wanted ← Exec.push env row
  return (wanted && limit.all (delivered < ·),
    { pipeline with delivered, hinted := pipeline.hinted || hints })

/-- Keeps a record in the buffer, and cuts the buffer back when it has grown too far. -/
def keep (env : Env) (setup : PipelineSetup) (pipeline : Pipeline) (scope : Scope)
    (record : Record) : Exec Pipeline := do
  let query := setup.query
  let (payload, row) : Payload × Option Row := match query.expand with
    | some chain => (.expand (chain.resolve env.store.load record), none)
    | none =>
        let row := query.project scope record
        (.row row, some row)
  let key := if setup.sorts then query.sortKey env.store.load record row else []
  let buffer := ⟨key, payload⟩ :: pipeline.buffer
  match setup.keep? with
  | some count =>
      if count + setup.slack ≤ buffer.length then
        Exec.time .sort
        let kept := (sortPending query.orderBy buffer.reverse).take count
        return { pipeline with buffer := kept.reverse }
      else return { pipeline with buffer }
  | none => return { pipeline with buffer }

/-- Takes a record that qualifies, and says whether more records can change the result. -/
def accept (env : Env) (setup : PipelineSetup) (pipeline : Pipeline) (scope : Scope)
    (record : Record) : Exec (Bool × Pipeline) := do
  if setup.query.isGrouping then
    return (true, { pipeline with
      grouping := pipeline.grouping.accept setup.query scope record })
  else if setup.streams then
    if pipeline.skipped < setup.query.skipCount then
      return (true, { pipeline with skipped := pipeline.skipped + 1 })
    else
      pipeline.deliver env setup (setup.query.project scope record)
  else
    let kept ← pipeline.keep env setup scope record
    return (true, kept)

/-- Delivers rows until one is the last that is wanted. -/
def deliverAll (env : Env) (setup : PipelineSetup) (pipeline : Pipeline) :
    List Row → Exec Pipeline
  | [] => return pipeline
  | row :: rows => do
      let (more, pipeline) ← pipeline.deliver env setup row
      if more then deliverAll env setup pipeline rows else return pipeline

/-- The rows of the groups, in the order asked for. -/
def groupRows (setup : PipelineSetup) (pipeline : Pipeline) : Exec (List Row) := do
  let rows := pipeline.grouping.finish setup.query
  Exec.enter .grouped
  if setup.query.orderBy.isEmpty then return rows
  else
    Exec.time .sort
    let order := setup.query.orderBy
    return stableSort
      (fun a b => compareKeys order (rowSortKey order a) (rowSortKey order b)) rows

/-- The rows of the kept records, in the order asked for. -/
def keptRows (env : Env) (setup : PipelineSetup) (pipeline : Pipeline) : Exec (List Row) := do
  if setup.sorts then Exec.time .sort
  let kept := pipeline.buffer.reverse
  let ordered := if setup.sorts then sortPending setup.query.orderBy kept else kept
  return ordered.flatMap fun pending =>
    match pending.payload with
    | .row row => [row]
    | .expand value => expandValue env.store.load value

/-- The part of the rows that SKIP and LIMIT leave. -/
def page (query : SelectQuery) (rows : List Row) : List Row :=
  let skipped := rows.drop query.skipCount
  match query.limitCount? with
  | some limit => skipped.take limit
  | none => skipped

/-- Delivers what is still kept, and returns the number of rows delivered in all. -/
def finish (env : Env) (setup : PipelineSetup) (pipeline : Pipeline) : Exec Nat := do
  Exec.enter .filtered
  if setup.streams then
    Exec.enter .limited
    Exec.enter .delivered
    return pipeline.delivered
  else
    let rows ← if setup.query.isGrouping then pipeline.groupRows setup
      else pipeline.keptRows env setup
    Exec.enter .sorted
    let unwound := unwindRows setup.query.unwind rows
    Exec.enter .limited
    let done ← pipeline.deliverAll env setup (page setup.query unwound)
    Exec.enter .delivered
    return done.delivered

end Pipeline

end RecordQuery
