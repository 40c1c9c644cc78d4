import RecordQuery.Plan.Fingerprint
import RecordQuery.Plan.Planner
import RecordQuery.Run.Parallel
import RecordQuery.Run.Serial

/-!
# `RecordQuery.Run.Execute`: planning and running a query

`execute` plans a query and runs the plan: it counts records without reading them, scans with
a worker per cluster, or reads one record after the other, as the plan says. The sink is told
the end exactly when the run succeeds.
-/

set_option autoImplicit false

namespace RecordQuery

/-- The summary of a run that succeeded. -/
structure Outcome where
  /-- The counters. -/
  stats : Stats
  /-- The explanation of the plan. -/
  explain : ExplainNode
  /-- Whether the deadline ended the run early. -/
  timedOut : Bool
  /-- The number of rows handed to the sink. -/
  delivered : Nat

/-- Delivers the number of records of some clusters as the only row. -/
def deliverCount (env : Env) (query : SelectQuery) (clusters : List ClusterId) (name : String) :
    Exec Nat := do
  Exec.enter .scan
  match env.store.count clusters with
  | .error failure => throw failure
  | .ok count =>
      Exec.time .scan
      Exec.enter .grouped
      Exec.enter .limited
      let delivered ←
        if query.skipCount == 0 then
          let _ ← Exec.push env (.computed [(name, .ofCount count)])
          pure 1
        else pure 0
      Exec.enter .delivered
      return delivered

/-- Plans a query in the context of the run. -/
def planQuery (env : Env) (query : SelectQuery) : Exec Plan := do
  let run ← getThe Run
  match env.store.plan env.options query run.context.vars run.context.inTransaction with
  | .ok plan =>
      Exec.time .plan
      return plan
  | .error failure => throw failure

/-- Sets the deadlines that apply, the query's before that of the settings, and lets the clock
run. -/
def startDeadline (env : Env) (query : SelectQuery) : Exec Unit :=
  Exec.update fun run =>
    let ofQuery := match query.timeout with
      | some (limitMs, strategy) => run.context.defaultTimeout limitMs strategy
      | none => run.context
    let ofOptions := match env.options.defaultTimeoutMs with
      | some limitMs => ofQuery.defaultTimeout limitMs env.options.timeoutStrategy
      | none => ofQuery
    { run with context := ofOptions.startClock }

/-- Runs a plan, and returns the number of rows delivered. -/
def runPlan (env : Env) (query : SelectQuery) (plan : Plan) : Exec Nat :=
  match plan.source with
  | .count clusters name => deliverCount env query clusters name
  | .rows source =>
      match plan.parallel, source with
      | true, .scan scan => runParallel env query plan scan
      | _, _ => runSerial env query plan source

/-- Plans and runs a query. -/
def execute (env : Env) (query : SelectQuery) : Exec Outcome := do
  let plan ← planQuery env query
  Exec.enter .targetResolved
  startDeadline env query
  Exec.count fun stats =>
    { stats with
      foldedPairs := stats.foldedPairs + plan.foldedPairs
      fullySorted := plan.fullySorted
      usedInOrderBy := plan.usedInOrderBy }
  let delivered ← runPlan env query plan
  Exec.finishSink
  let run ← getThe Run
  return ⟨run.context.stats, plan.explain query, run.context.timedOut, delivered⟩

/-- What a query gives in a context: a result or a failure, and the run afterwards. -/
def runQuery (env : Env) (query : SelectQuery) (context : Context) (signals : Signals) :
    Except Failure Outcome × Run :=
  (execute env query).run.run (.start context signals)

/-- Every row of a query, from a sink that takes all of them. -/
def collect (env : Env) (query : SelectQuery) (context : Context) (signals : Signals) :
    Except Failure (List Row) × Run :=
  let (result, run) := runQuery { env with sink := .collecting } query context signals
  (result.map fun _ => run.rows, run)

end RecordQuery
