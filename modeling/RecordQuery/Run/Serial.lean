import RecordQuery.Run.Evaluator
import RecordQuery.Run.Open
import RecordQuery.Run.Pipeline

/-!
# `RecordQuery.Run.Serial`: one record after the other

A serial run opens the source of its plan, or the fallback scan where an index cannot be
read. It then takes records one by one: it checks the deadline and the cancel token, takes a
record off the stream, evaluates it, and hands it to the pipeline if it qualifies.
-/

set_option autoImplicit false

namespace RecordQuery

/-- What the loop of a serial run carries along. -/
structure SerialState where
  /-- The records that are still to come. -/
  stream : Stream
  /-- The records that lookups have given. -/
  seen : List Rid
  /-- The pipeline. -/
  pipeline : Pipeline

/-- Takes a record off the stream of a serial run. -/
def pullRecord (env : Env) (order : List OrderItem) (state : SerialState) :
    Exec (Option Record × SerialState) := do
  let (result, after) := (state.stream.pull order env.store.load).run.run ⟨state.seen, []⟩
  Exec.update fun run => { run with events := after.timers.map .timer ++ run.events }
  match result with
  | .ok (record, stream) => return (record, { state with stream, seen := after.seen })
  | .error failure => throw failure

/-- Evaluates a record, and counts it. -/
def evaluateRecord (evaluator : Evaluator) (record : Record) : Exec (Option Fields) := do
  let run ← getThe Run
  let evaluation := evaluator.evaluate record run.context.stats
  Exec.count fun _ => evaluation.stats
  if evaluation.filtered then Exec.time .filter
  match evaluation.outcome with
  | .ok lets => return lets
  | .error failure => throw failure

/-- Takes records until the stream ends, the deadline ends the run, or the pipeline wants no
more. Every round but the last one takes a record off the stream. -/
def serialLoop (env : Env) (setup : PipelineSetup) (evaluator : Evaluator) :
    Nat → SerialState → Exec Pipeline
  | 0, state => return state.pipeline
  | rounds + 1, state => do
      if ← Exec.check env then
        let (next, state) ← pullRecord env setup.query.orderBy state
        match next with
        | none => return state.pipeline
        | some record =>
            match ← evaluateRecord evaluator record with
            | none => serialLoop env setup evaluator rounds state
            | some lets =>
                let (more, pipeline) ←
                  state.pipeline.accept env setup (evaluator.scope lets) record
                let state := { state with pipeline }
                if more then serialLoop env setup evaluator rounds state
                else return state.pipeline
      else return state.pipeline

/-- Opens the source of a plan or its fallback, and says whether the records come in the order
asked for. -/
def openPlan (env : Env) (query : SelectQuery) (plan : Plan) (source : Source) :
    Exec (Stream × Bool) := do
  let unsorted : Exec Unit := Exec.count fun stats => { stats with fullySorted := false }
  match ← openSource env (plan.orderSatisfied && !query.orderBy.isEmpty) source with
  | .stream stream sorted =>
      if !sorted then unsorted
      return (stream, plan.orderSatisfied && (sorted || !plan.fullySorted))
  | .unavailable failure =>
      match plan.fallback with
      | none => throw failure
      | some scan =>
          unsorted
          let stream ← openScan env scan
          return (stream, query.orderBy.isEmpty)

/-- Runs a plan that reads from a source, and returns the number of rows delivered. -/
def runSerial (env : Env) (query : SelectQuery) (plan : Plan) (source : Source) :
    Exec Nat := do
  let (stream, orderSatisfied) ← openPlan env query plan source
  let setup : PipelineSetup :=
    ⟨query, orderSatisfied, env.options.sortSlack, env.options.limitHintThreshold⟩
  let run ← getThe Run
  let evaluator := Evaluator.ofPlan env.store run.context.vars query plan
  let pipeline ← serialLoop env setup evaluator (stream.size + 1) ⟨stream, [], .start⟩
  pipeline.finish env setup

end RecordQuery
