import RecordQuery.Record
import RecordQuery.Run.Context
import RecordQuery.Store.Basic

/-!
# `RecordQuery.Run.Basic`: the state of a run

A run pushes rows into a sink. The sink answers each row with whether it wants more, and may
raise the cancel token of the query; both may depend on all rows it has received. `Run` keeps
the context, the calls of the sink and the events of the run. An `Exec` step changes the run
and gives a result or a failure; what was done before a failure stays done.
-/

set_option autoImplicit false

namespace RecordQuery

/-- What is measured during a run. -/
inductive Timer where
  | plan | indexProbe | scan | filter | sort | merge
deriving DecidableEq, Repr

/-- What a run warns about. -/
inductive Warning where
  /-- Many rows were delivered without LIMIT. -/
  | manyRows (delivered threshold : Nat)
  /-- An index could not be read for a clause. -/
  | probeFailed (index clause : String) (failure : Failure)
deriving DecidableEq, Repr

/-- The sentence of a warning. -/
def Warning.message : Warning → String
  | manyRows _ threshold =>
      "query returned more than " ++ toString threshold ++
        " rows without LIMIT; consider adding one"
  | probeFailed _ _ (.query _) => "index probe rejected"
  | probeFailed _ _ _ => "index probe failed"

/-- What happens during a run beside the rows. -/
inductive Event where
  /-- A phase is entered. -/
  | phase (phase : Phase)
  /-- A time is taken. -/
  | timer (timer : Timer)
  /-- A warning is given. -/
  | warning (warning : Warning)
deriving DecidableEq, Repr

/-- A call of the sink. -/
inductive SinkCall where
  /-- A row is handed over. -/
  | push (row : Row)
  /-- No row will follow. -/
  | finish
deriving Repr

/-- How a sink answers, given the rows it has received, the latest one first. -/
structure Sink where
  /-- Whether it wants another row. -/
  wantsMore : List Row → Bool
  /-- Whether it raises the cancel token of the query. -/
  cancels : List Row → Bool

/-- A sink that takes every row. -/
def Sink.collecting : Sink := ⟨fun _ => true, fun _ => false⟩

/-- The state of a run. -/
structure Run where
  /-- The context of the query. -/
  context : Context
  /-- The cancel tokens that are raised. -/
  signals : Signals
  /-- The calls of the sink, the latest one first. -/
  calls : List SinkCall
  /-- The events, the latest one first. -/
  events : List Event

namespace Run

/-- A run before its first step. -/
def start (context : Context) (signals : Signals) : Run := ⟨context, signals, [], []⟩

/-- The rows that the sink has received, the latest one first. -/
def received (run : Run) : List Row :=
  run.calls.filterMap fun
    | .push row => some row
    | .finish => none

/-- The rows that the sink has received, in order. -/
def rows (run : Run) : List Row := run.received.reverse

/-- Whether the sink was told that no row will follow. -/
def isFinished (run : Run) : Bool :=
  run.calls.any fun
    | .finish => true
    | .push _ => false

/-- The phases entered, in order. -/
def phases (run : Run) : List Phase :=
  run.events.reverse.filterMap fun
    | .phase p => some p
    | _ => none

/-- The warnings given, in order. -/
def warnings (run : Run) : List Warning :=
  run.events.reverse.filterMap fun
    | .warning w => some w
    | _ => none

/-- How often a time was taken. -/
def timerCount (run : Run) (timer : Timer) : Nat :=
  (run.events.filter fun e => e == .timer timer).length

/-- The run with one more event. -/
def record (run : Run) (event : Event) : Run := { run with events := event :: run.events }

/-- The run with its counters changed. -/
def modifyStats (run : Run) (change : Stats → Stats) : Run :=
  { run with context := { run.context with stats := change run.context.stats } }

end Run

/-- What stays the same during a run. -/
structure Env where
  /-- The store. -/
  store : Store
  /-- The settings. -/
  options : Options
  /-- The clock. -/
  clock : Clock
  /-- The sink. -/
  sink : Sink

/-- A step of a run, with a result or a failure. -/
abbrev Exec := ExceptT Failure (StateM Run)

namespace Exec

/-- Changes the run. -/
def update (change : Run → Run) : Exec Unit := modifyThe Run change

/-- Changes the counters. -/
def count (change : Stats → Stats) : Exec Unit := update fun run => run.modifyStats change

/-- Notes that a time was taken. -/
def time (timer : Timer) : Exec Unit := update fun run => run.record (.timer timer)

/-- Gives a warning. -/
def warn (warning : Warning) : Exec Unit := update fun run => run.record (.warning warning)

/-- Enters a phase, unless the query is in it already. -/
def enter (phase : Phase) : Exec Unit := update fun run =>
  if run.context.phase == phase then run
  else { run.record (.phase phase) with context := { run.context with phase } }

/-- Whether the run may go on. -/
def check (env : Env) : Exec Bool := do
  let run ← getThe Run
  let (result, context) := run.context.check env.clock run.signals
  set { run with context }
  match result with
  | .ok goOn => return goOn
  | .error failure => throw failure

/-- Hands a row to the sink, and says whether it wants another one. -/
def push (env : Env) (row : Row) : Exec Bool := do
  update fun run => { run with calls := .push row :: run.calls }
  let run ← getThe Run
  let received := run.received
  if env.sink.cancels received then
    update fun run => { run with signals :=
      match run.context.token with
      | some token => run.signals.set token true
      | none => run.signals }
  return env.sink.wantsMore received

/-- Tells the sink that no row will follow. -/
def finishSink : Exec Unit := update fun run => { run with calls := .finish :: run.calls }

end Exec

end RecordQuery
