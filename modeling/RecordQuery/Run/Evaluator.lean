import RecordQuery.Plan.Basic
import RecordQuery.Run.Context

/-!
# `RecordQuery.Run.Evaluator`: which records qualify

A record read from the source is checked against the class of the target, its LET bindings
are computed, and the condition is evaluated with them. Serial runs and the workers of
parallel scans share this step.
-/

set_option autoImplicit false

namespace RecordQuery

/-- What is needed to tell whether a record qualifies. -/
structure Evaluator where
  /-- The store, for links and classes. -/
  store : Store
  /-- The variables of the context. -/
  vars : Fields
  /-- The LET bindings. -/
  lets : List (String × Operand)
  /-- The condition. -/
  filter : Option Condition
  /-- The class that the record has to belong to. -/
  classFilter : Option ClassFilter

/-- What came of one record. -/
structure Evaluation where
  /-- The LET bindings of a record that qualifies, `none` for one that does not. -/
  outcome : Except Failure (Option Fields)
  /-- The counters afterwards. -/
  stats : Stats
  /-- Whether the condition was evaluated. -/
  filtered : Bool

/-- Whether a class passes the class filter. -/
def ClassFilter.accepts (filter : ClassFilter) (schema : Schema) (className : String) : Bool :=
  if filter.polymorphic then schema.isSubclassOf className filter.className
  else className == filter.className

namespace Evaluator

/-- The evaluator of a planned query. -/
def ofPlan (store : Store) (vars : Fields) (query : SelectQuery) (plan : Plan) :
    Evaluator :=
  ⟨store, vars, query.lets, plan.filter, plan.classFilter⟩

/-- The scope that sees the given LET bindings. -/
def scope (evaluator : Evaluator) (lets : Fields) : Scope :=
  ⟨evaluator.store.load, evaluator.vars, lets⟩

/-- The LET bindings of a record, each of which sees those before it. -/
def bindings (evaluator : Evaluator) (record : Record) : Fields :=
  evaluator.lets.foldl
    (fun lets (name, operand) =>
      lets.insert name (operand.resolve (evaluator.scope lets) record)) []

/-- Whether the record belongs to the class of the target. -/
def acceptsClass (evaluator : Evaluator) (record : Record) : Bool :=
  evaluator.classFilter.all fun filter =>
    filter.accepts evaluator.store.schema record.className

/-- Evaluates one record, and counts it. -/
def evaluate (evaluator : Evaluator) (record : Record) (stats : Stats) : Evaluation :=
  let read := { stats with reads := stats.reads + 1 }
  if !evaluator.acceptsClass record then ⟨.ok none, read, false⟩
  else
    let analyzed := { read with analyzed := read.analyzed + 1 }
    let lets := evaluator.bindings record
    match evaluator.filter with
    | none => ⟨.ok (some lets), analyzed, false⟩
    | some condition =>
        match condition.evaluate (evaluator.scope lets) record with
        | .error e => ⟨.error (.query e), analyzed, false⟩
        | .ok keep => ⟨.ok (if keep then some lets else none), analyzed, true⟩

end Evaluator

end RecordQuery
