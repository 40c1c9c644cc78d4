import RecordQuery.Proofs.CountedRows
import RecordQuery.Proofs.Executions

/-!
# `RecordQuery.Proofs.Cancellation`: queries whose token is raised

A raised token is found where a run is checked, by `Exec.check`. A serial loop is checked before its
first record, so a query that reads fails at the latest there, with nothing handed to the sink. A
count reads no record, and `deliverCount` has no check.

`Run.Cancelled` says that the token of the run is among the raised signals. It is raised from the
beginning here, and only serial plans are looked at; what a token does that is raised while a query
runs is part of `SinkCalls` and `Phases`.

The theorems:

* `runSerial_cancelled`: a serial run with a raised token fails, with the failure of its source or
  as cancelled, and calls no sink.
* `runQuery_cancelled_iff`: a query with a raised token fails without a call of the sink exactly if
  its plan reads records.
-/

set_option autoImplicit false

namespace RecordQuery

open Steps

/-- The token of the query is raised: it is among the `signals` of the run. -/
def Run.Cancelled (run : Run) : Prop := run.context.isCancelled run.signals = true

section

variable {env : Env} {query : SelectQuery} {run : Run}

/-- A raised token stays raised while a run only counts and notes, `Run.Keeps`. -/
theorem Run.Cancelled.keeps {after : Run} (h : run.Cancelled) (hkeeps : run.Keeps after) :
    after.Cancelled := by
  unfold Run.Cancelled Context.isCancelled at h ⊢
  rwa [hkeeps.token, hkeeps.signals]

/-- `check` finds a raised token before it looks at the deadline. -/
theorem check_cancelled (h : run.Cancelled) :
    (Exec.check env).run.run run = (.error .cancelled, run) := by
  have hcheck : run.context.check env.clock run.signals = (.error .cancelled, run.context) := by
    unfold Context.check
    exact if_pos h
  unfold Exec.check
  rw [run_bind, run_get]
  dsimp only
  rw [hcheck]
  rfl

/-- A serial loop with a raised token ends before its first record. It needs a round to find the
token, and `runSerial` gives it one more than the stream has records. -/
theorem serialLoop_cancelled {setup : PipelineSetup} {evaluator : Evaluator} {rounds : Nat}
    {state : SerialState} (h : run.Cancelled) :
    (serialLoop env setup evaluator (rounds + 1) state).run.run run = (.error .cancelled, run) := by
  unfold serialLoop
  rw [run_bind, check_cancelled h]

/-- How a serial run with a raised token fails: as its source does, which is opened before the first
`check`, and otherwise as `cancelled`. -/
def Plan.cancelFailure (plan : Plan) (store : Store) (query : SelectQuery) (source : Source) :
    Failure :=
  match plan.opened store query source with
  | .error failure => failure
  | .ok _ => .cancelled

/-- A serial run with a raised token fails before its first record, with `Plan.cancelFailure`, and
the calls of the sink are those from before. -/
theorem runSerial_cancelled (plan : Plan) (source : Source) (h : run.Cancelled) :
    ∃ after, (runSerial env query plan source).run.run run =
        (.error (plan.cancelFailure env.store query source), after) ∧
      after.calls = run.calls := by
  obtain ⟨opened, hkeeps, hrun⟩ := runSerial_run env query plan source run
  refine ⟨opened, ?_, hkeeps.calls⟩
  rw [hrun]
  unfold Plan.cancelFailure
  rcases plan.opened env.store query source with failure | ⟨stream, ordered⟩
  · rfl
  · dsimp only
    rw [run_bind, serialLoop_cancelled (h.keeps hkeeps)]

/-- A query with a raised token fails, and hands nothing to the sink, exactly if its plan reads
records, `.rows`. The other plans are counts, and a count is not checked: it delivers its row. -/
theorem runQuery_cancelled_iff {context : Context} {signals : Signals} {plan : Plan}
    (hreach : env.store.Reachable fun _ => True) (hplan : env.plan query context = .ok plan)
    (hserial : plan.parallel = false) (hcancelled : context.isCancelled signals = true) :
    ((∃ failure, (runQuery env query context signals).1 = .error failure) ∧
        (runQuery env query context signals).2.calls = []) ↔
      ∃ source, plan.source = .rows source := by
  have hcancelled : (Run.start context signals).Cancelled := hcancelled
  obtain ⟨planned, hplanned, hrunPlanned⟩ := planQuery_run env query (.start context signals)
  have hchosen : env.plan query (Run.start context signals).context = .ok plan := hplan
  obtain ⟨entered, deadline, stats, henter, hbegin⟩ := beginPlan_run env query plan planned
  have hentered : planned.Keeps entered := by
    obtain ⟨_, henter', hkeeps⟩ := Exec.gives_enter .targetResolved planned
    cases henter.symm.trans henter'
    exact hkeeps
  -- neither planning nor the deadlines touch the token or the sink
  let begun : Run := { entered with context := { entered.context with deadline, stats } }
  have hbegun : entered.Cancelled := (hcancelled.keeps hplanned).keeps hentered
  have hcalls : begun.calls = [] := hentered.calls.trans hplanned.calls
  have hrun : runQuery env query context signals =
      ((runPlan env query plan) >>= endPlan query plan).run.run begun := by
    unfold runQuery
    rw [execute_eq, run_bind, hrunPlanned, hchosen]
    dsimp only
    rw [run_bind, hbegin]
  rw [hrun, run_bind]
  cases hsource : plan.source with
  | rows source =>
      refine ⟨fun _ => ⟨source, rfl⟩, fun _ => ?_⟩
      have hreads : runPlan env query plan = runSerial env query plan source := by
        unfold runPlan
        rw [hsource, hserial]
      obtain ⟨after, hfails, hafter⟩ := @runSerial_cancelled env query begun plan source hbegun
      rw [hreads, hfails]
      exact ⟨⟨_, rfl⟩, hafter.trans hcalls⟩
  | count clusters name =>
      refine ⟨fun ⟨⟨failure, hfails⟩, _⟩ => ?_, nofun⟩
      -- the clusters of a class exist, so counting their records succeeds
      obtain ⟨className, polymorphic, -, -, rfl⟩ := plan_counts hplan hsource
      have hcount := hreach.sound.count_recordsIn
        (fun _ hid => hreach.sound.cluster_of_targetClusters hid)
        (env.store.schema.targetClusters_nodup className polymorphic) .ascending
      obtain ⟨after, hcounts, -⟩ := deliverCount_run env query
        (env.store.schema.targetClusters className polymorphic) name begun
      have hreads : runPlan env query plan = deliverCount env query
          (env.store.schema.targetClusters className polymorphic) name := by
        unfold runPlan
        rw [hsource]
      rw [hreads, hcounts, hcount] at hfails
      cases hfails

end

/-! ## A raised token -/

/-- Class `A` with one record. -/
def loneStore : Store := .ofChanges [
  .createClass "A" none 1 false,
  .insert "A" [("x", .int 1)]]

/-- An executor over `loneStore`. -/
def loneEnv : Env := ⟨loneStore, .default, fun _ => 0, .collecting⟩

/-- A context with the token 0. -/
def tokenContext : Context := { Context.empty with token := some 0 }

/-- The number of records, which `deliverCount` reads off the cluster. -/
def loneCountQuery : SelectQuery :=
  { SelectQuery.ofTarget (.ofClass "A" true) with
    projections := [.ofAggregate .count none none] }

/-- The records of `loneStore` with one value, for which a scan is planned. -/
def loneFilterQuery : SelectQuery :=
  { SelectQuery.ofTarget (.ofClass "A" true) with
    filter := some (.compare ⟨.field ⟨"x", []⟩, .equals, .literal (.int 1)⟩) }

/-- With a raised token `loneFilterQuery` fails, and the sink gets nothing: its plan is a scan. -/
theorem runQuery_cancelled_filter :
    loneEnv.store.Reachable (fun _ => True) ∧ tokenContext.isCancelled [0] = true ∧
      (∃ failure, (runQuery loneEnv loneFilterQuery tokenContext [0]).1 = .error failure) ∧
      (runQuery loneEnv loneFilterQuery tokenContext [0]).2.calls = [] := by
  have hreach : loneStore.Reachable fun _ => True :=
    Store.reachable_ofChanges fun change _ => by cases change <;> trivial
  have hparallel : ((loneEnv.plan loneFilterQuery tokenContext).toOption.map Plan.parallel) =
      some false := by decide +kernel
  refine ⟨hreach, rfl, ?_⟩
  cases hplan : loneEnv.plan loneFilterQuery tokenContext with
  | error failure =>
      rw [hplan] at hparallel
      cases hparallel
  | ok plan =>
      rw [hplan] at hparallel
      refine (runQuery_cancelled_iff hreach hplan (Option.some.inj hparallel) rfl).mpr ?_
      cases hsource : plan.source with
      | rows source => exact ⟨source, rfl⟩
      -- a query without aggregates counts nothing
      | count clusters name =>
          obtain ⟨_, _, -, hcolumn, -⟩ := plan_counts hplan hsource
          cases hcolumn

/-- With a raised token `loneCountQuery` delivers the number of records and succeeds: its plan is a
count. -/
theorem runQuery_cancelled_count :
    loneEnv.store.Reachable (fun _ => True) ∧
      ((loneEnv.plan loneCountQuery tokenContext).toOption.map Plan.parallel) = some false ∧
      tokenContext.isCancelled [0] = true ∧
      (runQuery loneEnv loneCountQuery tokenContext [0]).1.isOk = true ∧
      ((runQuery loneEnv loneCountQuery tokenContext [0]).2.rows.map (·.get "count") ==
        [.int 1]) = true :=
  ⟨Store.reachable_ofChanges fun change _ => by cases change <;> trivial, by decide +kernel, rfl,
    by decide +kernel, by decide +kernel⟩

end RecordQuery
