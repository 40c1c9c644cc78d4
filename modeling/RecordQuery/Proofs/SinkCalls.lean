import RecordQuery.Proofs.CountedRows
import RecordQuery.Proofs.Executions

/-!
# `RecordQuery.Proofs.SinkCalls`: how the sink of a query is called

Rows reach the sink on three routes: a pipeline that streams hands them over one by one, in a serial
loop or behind the queue of a parallel scan; other pipelines hand them over at their end; and a
count is a row of its own. On each of them the sink is called in the same way.

Two invariants go together. `Run.Handed` says how the sink has been called so far, and how many rows
were counted; it holds at every time, also after a failure. `Run.Ready` says that the sink may be
called again: it has not refused a row, and LIMIT allows another one. A part of a run that calls the
sink needs both, and leaves both or asks for no more; `PipelineSetup.Leaves` says so of a part that
ends with a pipeline, and `PipelineSetup.LeavesScan` of a state of a parallel scan.

The sink may answer as it likes, also depending on all rows that it has received, and it may raise a
token when it gets one. The result is about all executions, `Executes`.

The theorems:

* `deliver_handed`: handing over a row that the sink is ready for.
* `Accepted.handed`, `finish_handed`: what a pipeline does with a record, and at its end.
* `serialRound_handed`, `moves_handed`: what a round of a serial loop and a step of a parallel scan
  do.
* `executes_keepsProtocol`: how the sink is called in every execution of a query.
-/

set_option autoImplicit false

namespace RecordQuery

open Steps

/-- How the sink has been called: with rows only, with none after it has refused to take more, and
with no more of them than LIMIT says. `delivered` is the number that was counted. `received` has the
latest row in front, so what was received before is a suffix. -/
structure Run.Handed (sink : Sink) (query : SelectQuery) (delivered : Nat) (run : Run) :
    Prop where
  /-- Only rows were handed over. -/
  pushes : run.calls = run.received.map .push
  /-- They were counted. -/
  counted : run.received.length = delivered
  /-- No row came after a refusal. -/
  refused : ∀ rows, rows <:+ run.received → rows ≠ [] → sink.wantsMore rows = false →
    rows = run.received
  /-- There are no more rows than LIMIT says. -/
  limited : ∀ limit, query.limitCount? = some limit → run.received.length ≤ limit

/-- The sink may get another row: `wantsMore` has not refused one, and LIMIT allows it. A sink that
has received nothing is not asked. -/
structure Run.Ready (sink : Sink) (query : SelectQuery) (run : Run) : Prop where
  /-- The sink wants another row. -/
  wanted : run.received ≠ [] → sink.wantsMore run.received = true
  /-- LIMIT allows another row. -/
  allowed : query.limitCount?.all (run.received.length < ·) = true

section

variable {sink : Sink} {query : SelectQuery} {delivered : Nat} {run after : Run}

/-- Where the sink is not called (`hcalls`), it was `Handed` what it was before. -/
theorem Run.Handed.of_calls (h : run.Handed sink query delivered)
    (hcalls : after.calls = run.calls) : after.Handed sink query delivered := by
  have hreceived := Run.received_of_calls hcalls
  exact ⟨by rw [hcalls, hreceived, h.pushes], by rw [hreceived, h.counted],
    by rw [hreceived]; exact h.refused, by rw [hreceived]; exact h.limited⟩

/-- Where the sink is not called (`hcalls`), it is as `Ready` as before. -/
theorem Run.Ready.of_calls (h : run.Ready sink query) (hcalls : after.calls = run.calls) :
    after.Ready sink query := by
  have hreceived := Run.received_of_calls hcalls
  exact ⟨by rw [hreceived]; exact h.wanted, by rw [hreceived]; exact h.allowed⟩

/-- A row that the sink is ready for may be handed over: `hready` gives both that no row was refused
and that LIMIT is not reached. -/
theorem Run.Handed.push (h : run.Handed sink query delivered) (hready : run.Ready sink query)
    {row : Row} (hcalls : after.calls = .push row :: run.calls) :
    after.Handed sink query (delivered + 1) := by
  have hreceived := Run.received_of_push hcalls
  refine ⟨?_, ?_, fun rows hrows hsome hrefuses => ?_, fun limit hlimit => ?_⟩
  · rw [hcalls, hreceived, List.map_cons, h.pushes]
  · rw [hreceived, List.length_cons, h.counted]
  · rw [hreceived] at hrows ⊢
    rcases List.suffix_cons_iff.mp hrows with rfl | hearlier
    · rfl
    · -- an earlier refusal was the last answer, but the last answer was none
      obtain rfl := h.refused rows hearlier hsome hrefuses
      rw [hready.wanted hsome] at hrefuses
      cases hrefuses
  · have hallowed := hready.allowed
    rw [hlimit] at hallowed
    rw [hreceived, List.length_cons]
    exact of_decide_eq_true hallowed

/-- After a row that was handed over the sink is ready for another one, where it wants more and
LIMIT allows it. This is the test of `Pipeline.deliver`. -/
theorem Run.Handed.ready_push (h : run.Handed sink query delivered) {row : Row}
    (hcalls : after.calls = .push row :: run.calls)
    (hmore : (sink.wantsMore (row :: run.received) &&
      query.limitCount?.all (delivered + 1 < ·)) = true) : after.Ready sink query := by
  obtain ⟨hwanted, hallowed⟩ := Bool.and_eq_true_iff.mp hmore
  have hreceived := Run.received_of_push hcalls
  refine ⟨fun _ => by rw [hreceived]; exact hwanted, ?_⟩
  rw [hreceived, List.length_cons, h.counted]
  exact hallowed

/-- Before the first call nothing was `received`. -/
theorem Run.received_nil (hcalls : run.calls = []) : run.received = [] := by
  unfold Run.received
  rw [hcalls]
  rfl

/-- Before the first call the sink was `Handed` no row. -/
theorem Run.handed_nil (hcalls : run.calls = []) : run.Handed sink query 0 := by
  have hreceived := Run.received_nil hcalls
  refine ⟨by rw [hcalls, hreceived]; rfl, by rw [hreceived]; rfl, fun rows hrows _ _ => ?_, ?_⟩
  · rw [hreceived] at hrows ⊢
    exact List.suffix_nil.mp hrows
  · rw [hreceived]
    exact fun limit _ => Nat.zero_le limit

/-- Before the first row the sink is ready, since no valid LIMIT is zero, `hvalid`. -/
theorem Run.ready_nil (hcalls : run.calls = []) (hvalid : query.validate = .ok ⟨⟩) :
    run.Ready sink query := by
  have hreceived := Run.received_nil hcalls
  refine ⟨fun hsome => absurd hreceived hsome, ?_⟩
  rw [hreceived]
  exact SelectQuery.limit_of_valid hvalid

end

/-! ## Pipelines -/

section

variable {env : Env} {setup : PipelineSetup} {evaluator : Evaluator}

/-- Handing over a row counts it, and says whether the sink is ready for another one, `more`. -/
theorem deliver_handed {pipeline : Pipeline} {run : Run} (row : Row)
    (h : run.Handed env.sink setup.query pipeline.delivered)
    (hready : run.Ready env.sink setup.query) :
    ∃ more next after, (pipeline.deliver env setup row).run.run run = (.ok (more, next), after) ∧
      after.Handed env.sink setup.query next.delivered ∧
      (more = true → after.Ready env.sink setup.query) := by
  obtain ⟨hinted, after, hrun, hcalls, -⟩ := deliver_calls env setup pipeline row run
  exact ⟨_, _, after, hrun, h.push hready hcalls, h.ready_push hcalls⟩

/-- `deliverAll` hands rows over as long as the sink is `Ready` for them. The induction is on the
rows. -/
theorem deliverAll_handed {pipeline : Pipeline} {run : Run} (rows : List Row)
    (h : run.Handed env.sink setup.query pipeline.delivered)
    (hready : run.Ready env.sink setup.query) :
    ∃ done after, (pipeline.deliverAll env setup rows).run.run run = (.ok done, after) ∧
      after.Handed env.sink setup.query done.delivered := by
  induction rows generalizing pipeline run with
  | nil => exact ⟨pipeline, run, rfl, h⟩
  | cons row rows ih =>
      obtain ⟨more, next, mid, hrun, hmid, hnext⟩ := deliver_handed row h hready
      unfold Pipeline.deliverAll
      rw [run_bind, hrun]
      cases more with
      | true => exact ih hmid (hnext rfl)
      | false => exact ⟨next, mid, rfl, hmid⟩

/-- A record that is `Accepted` leads to a row at most. The sink stays ready unless the pipeline
streams and wants no more: a pipeline that does not stream calls it at its end only. -/
theorem Accepted.handed {item : WorkItem} {pipeline next : Pipeline} {run after : Run} {more : Bool}
    (haccepted : Accepted env setup evaluator item pipeline run more next after)
    (h : run.Handed env.sink setup.query pipeline.delivered)
    (hready : run.Ready env.sink setup.query) :
    after.Handed env.sink setup.query next.delivered ∧
      (more = true ∨ setup.streams = false → after.Ready env.sink setup.query) := by
  cases haccepted with
  | gathered | skipped => exact ⟨h, fun _ => hready⟩
  | delivered hstreams _ hcalls =>
      refine ⟨h.push hready hcalls, fun hmore => h.ready_push hcalls ?_⟩
      exact hmore.resolve_right (by simp [hstreams])
  | kept _ _ hkeeps => exact ⟨h.of_calls hkeeps.calls, fun _ => hready.of_calls hkeeps.calls⟩

/-- `finish` hands over the rows that the pipeline has kept; if it `streams`, there are none. -/
theorem finish_handed {pipeline : Pipeline} {run : Run}
    (h : run.Handed env.sink setup.query pipeline.delivered)
    (hready : setup.streams = false → run.Ready env.sink setup.query) :
    ∃ delivered after, (pipeline.finish env setup).run.run run = (.ok delivered, after) ∧
      after.Handed env.sink setup.query delivered := by
  cases hstreams : setup.streams with
  | true =>
      obtain ⟨after, hrun, hkeeps⟩ := finish_streams pipeline run hstreams
      exact ⟨_, after, hrun, h.of_calls hkeeps.calls⟩
  | false =>
      obtain ⟨begun, hbegun, hfinish⟩ := @finish_run env setup pipeline run hstreams
      obtain ⟨done, mid, hrun, hmid⟩ := deliverAll_handed
        (Pipeline.page setup.query (setup.rowsAtEnd env pipeline)) (h.of_calls hbegun.calls)
        ((hready hstreams).of_calls hbegun.calls)
      obtain ⟨after, hafter, hkeeps⟩ := hfinish done mid hrun
      exact ⟨_, after, hafter, hmid.of_calls hkeeps.calls⟩

/-- How the sink has been called when a part of a run fails, or ends with a pipeline. It is `Ready`
for another row where the part asks for more, and always where the pipeline does not stream, which
will call it at its end. -/
def PipelineSetup.Leaves (setup : PipelineSetup) (sink : Sink) (run : Run) :
    Except Failure (Bool × Pipeline) → Prop
  | .error _ => ∃ delivered, run.Handed sink setup.query delivered
  | .ok (more, pipeline) => run.Handed sink setup.query pipeline.delivered ∧
      (more = true ∨ setup.streams = false → run.Ready sink setup.query)

/-! ## Serial loops -/

/-- A round calls the sink for a row at most. The cases are those of `serialRound_cases`. -/
theorem serialRound_handed {state : SerialState} {run after : Run}
    {result : Except Failure (Bool × SerialState)}
    (hround : (serialRound env setup evaluator state).run.run run = (result, after))
    (h : run.Handed env.sink setup.query state.pipeline.delivered)
    (hready : run.Ready env.sink setup.query) :
    setup.Leaves env.sink after (result.map fun (more, next) => (more, next.pipeline)) := by
  rcases serialRound_cases hround with ⟨failure, rfl, hquiet⟩ |
    ⟨more, next, rfl, hpipeline, hquiet⟩ | ⟨item, mid, more, next, hquiet, haccept, rfl⟩
  · exact ⟨_, h.of_calls hquiet.calls⟩
  · refine ⟨?_, fun _ => hready.of_calls hquiet.calls⟩
    rw [hpipeline]
    exact h.of_calls hquiet.calls
  · exact (accepted_of_run item haccept).handed (h.of_calls hquiet.calls)
      (hready.of_calls hquiet.calls)

/-- A serial loop calls the sink for the rows of a pipeline that streams. The induction is on
`SerialLoops`. -/
theorem SerialLoops.handed {rounds : Nat} {state : SerialState} {run after : Run}
    {result : Except Failure Pipeline}
    (hloops : SerialLoops env setup evaluator rounds state run result after)
    (h : run.Handed env.sink setup.query state.pipeline.delivered)
    (hready : run.Ready env.sink setup.query) :
    setup.Leaves env.sink after (result.map fun pipeline => (false, pipeline)) := by
  -- raising and taking down tokens before a round does not call the sink
  induction hloops with
  | out => exact ⟨h, fun _ => hready⟩
  | failed clock signals hround =>
      exact serialRound_handed hround (h.of_calls rfl) (hready.of_calls rfl)
  | last clock signals hround =>
      exact serialRound_handed hround (h.of_calls rfl) (hready.of_calls rfl)
  | goesOn clock signals hround hrest ih =>
      obtain ⟨hmid, hnext⟩ := serialRound_handed hround (h.of_calls rfl) (hready.of_calls rfl)
      exact ih hmid (hnext (.inl rfl))

/-! ## Parallel scans -/

/-- How the sink has been called in a state of a parallel scan. It is ready while the consumer uses
records, `ConsumerPhase.isTaking`. -/
def PipelineSetup.LeavesScan (setup : PipelineSetup) (sink : Sink)
    (state : ParallelState (Pipeline × Run)) : Prop :=
  setup.Leaves sink state.consumer.2 (.ok (state.phase.isTaking, state.consumer.1))

/-- A step that `ParallelScan.Moves` allows calls the sink for a row at most, and only where it is
one of the consumer. -/
theorem moves_handed {scan : ScanPlan} {state next : ParallelState (Pipeline × Run)}
    (h : setup.LeavesScan env.sink state)
    (hmove : ParallelScan.Moves env setup evaluator scan state next) :
    setup.LeavesScan env.sink next := by
  obtain ⟨hhanded, hready⟩ := h
  obtain ⟨clock, signals, place | _, hstep⟩ := hmove
  · -- a worker leaves the consumer alone
    obtain ⟨worker, after, -, -, hphase, hconsumer, -⟩ := ParallelScan.stepWorker_moves hstep
    unfold PipelineSetup.LeavesScan
    rw [hconsumer, hphase]
    exact ⟨hhanded.of_calls rfl, fun hmore => (hready hmore).of_calls rfl⟩
  · obtain ⟨-, -, htaking, hconsumer⟩ := ParallelScan.stepConsumer_moves hstep
    rcases hconsumer with hconsumer | ⟨item, result, hnow, hconsume, hopen⟩
    · unfold PipelineSetup.LeavesScan
      rw [hconsumer]
      exact ⟨hhanded.of_calls rfl, fun hmore => (hready (hmore.imp_left htaking)).of_calls rfl⟩
    · -- a check that stops the consumer calls nobody; a record that it accepts is a row at most
      replace hnow : state.phase = .handling item := hnow
      have hready := hready (.inl (by rw [hnow]; rfl))
      rcases ParallelScan.consume_cases hconsume with ⟨hquiet, hpipeline, hstop⟩ |
        ⟨mid, more, hquiet, haccept, rfl⟩
      · refine ⟨?_, fun _ => hready.of_calls hquiet.calls⟩
        rw [hpipeline]
        exact hhanded.of_calls hquiet.calls
      · obtain ⟨hhanded', hnext⟩ := (accepted_of_run item haccept).handed
          (hhanded.of_calls hquiet.calls) (hready.of_calls hquiet.calls)
        exact ⟨hhanded', fun hmore => hnext (hmore.imp_left fun h => Except.ok.inj (hopen h))⟩

/-- `Run.joinWorker` does not call the sink, for any number of workers. -/
theorem joinWorkers_calls (workers : List Worker) (run : Run) :
    (workers.foldl Run.joinWorker run).calls = run.calls := by
  induction workers generalizing run with
  | nil => rfl
  | cons worker workers ih => exact ih (run.joinWorker worker)

/-- `ParallelScan.conclude` hands over what the pipeline has kept, unless somebody has failed. -/
theorem conclude_handed {scan : ScanPlan} {done : ParallelState (Pipeline × Run)}
    {run after : Run} {result : Except Failure Nat}
    (h : setup.LeavesScan env.sink done)
    (hconclude : (ParallelScan.conclude env setup scan done).run.run run = (result, after)) :
    ∃ delivered, after.Handed env.sink setup.query delivered ∧
      ∀ count, result = .ok count → count = delivered := by
  obtain ⟨hhanded, hready⟩ := h
  let joined := done.workers.foldl Run.joinWorker (done.consumer.2.modifyStats fun stats =>
    { stats with parallelTasks := stats.parallelTasks + scan.clusters.length })
  obtain ⟨timed, htimed, hrunTimed⟩ := (Exec.gives_time .scan).step joined
  have hcalls : timed.calls = done.consumer.2.calls :=
    htimed.calls.trans (joinWorkers_calls _ _)
  unfold ParallelScan.conclude at hconclude
  rw [run_bind, run_set] at hconclude
  dsimp only at hconclude
  rw [hrunTimed] at hconclude
  -- after a failure the pipeline is not ended, so what was handed over is all there is
  split at hconclude
  · cases hconclude
    exact ⟨_, hhanded.of_calls hcalls, fun _ hok => by cases hok⟩
  · obtain ⟨delivered, last, hfinish, hlast⟩ := finish_handed (hhanded.of_calls hcalls)
      fun hstreams => (hready (.inr hstreams)).of_calls hcalls
    rw [hfinish] at hconclude
    cases hconclude
    exact ⟨delivered, hlast, fun _ hok => (Except.ok.inj hok).symm⟩

end

/-! ## Every execution -/

section

variable {env : Env} {query : SelectQuery}

/-- How the sink has been called when a plan has run: the rows are `Handed` as many as `result`
counts. -/
def Run.Delivers (sink : Sink) (query : SelectQuery) (run : Run) (result : Except Failure Nat) :
    Prop :=
  ∃ delivered, run.Handed sink query delivered ∧ ∀ count, result = .ok count → count = delivered

/-- `deliverCount` hands over the row of the count, unless it is skipped. The cases are those of
`Counted`. -/
theorem deliverCount_handed {clusters : List ClusterId} {name : String} {run after : Run}
    {result : Except Failure Nat} (h : run.Handed env.sink query 0)
    (hready : run.Ready env.sink query)
    (hcount : (deliverCount env query clusters name).run.run run = (result, after)) :
    after.Delivers env.sink query result := by
  obtain ⟨_, _, hrun, hcounted⟩ := deliverCount_counted env query clusters name run
  cases hrun.symm.trans hcount
  cases hcounted with
  | missing _ hcalls => exact ⟨0, h.of_calls hcalls, fun _ hok => by cases hok⟩
  | handed _ _ hcalls => exact ⟨1, h.push hready hcalls, fun _ hok => (Except.ok.inj hok).symm⟩
  | skipped _ _ hcalls => exact ⟨0, h.of_calls hcalls, fun _ hok => (Except.ok.inj hok).symm⟩

/-- On every route the rows that a plan hands over are counted, `Run.Delivers`. The cases are those
of `Plan.Runs`. -/
theorem Plan.Runs.handed {plan : Plan} {run after : Run} {result : Except Failure Nat}
    (hruns : plan.Runs env query run result after) (h : run.Handed env.sink query 0)
    (hready : run.Ready env.sink query) : after.Delivers env.sink query result := by
  have hopened {source : Source} {opened : Run} {result : Except Failure (Stream × Bool)}
      (hopen : (openPlan env query plan source).run.run run = (result, opened)) :
      opened.calls = run.calls := by
    obtain ⟨_, hopen', hkeeps⟩ := openPlan_gives env query plan source run
    cases hopen.symm.trans hopen'
    exact hkeeps.calls
  cases hruns with
  | counted _ hcount => exact deliverCount_handed h hready hcount
  | unopened _ hopen =>
      exact ⟨0, h.of_calls (hopened hopen), fun _ hok => by cases hok⟩
  | broken _ hopen hloop =>
      obtain ⟨delivered, hhanded⟩ := hloop.handed (h.of_calls (hopened hopen))
        (hready.of_calls (hopened hopen))
      exact ⟨delivered, hhanded, fun _ hok => by cases hok⟩
  | looped _ hopen hloop hfinish =>
      obtain ⟨hhanded, hready⟩ := hloop.handed (h.of_calls (hopened hopen))
        (hready.of_calls (hopened hopen))
      obtain ⟨delivered, last, hrun, hlast⟩ :=
        finish_handed hhanded fun hstreams => hready (.inr hstreams)
      rw [hfinish] at hrun
      cases hrun
      exact ⟨delivered, hlast, fun _ hok => (Except.ok.inj hok).symm⟩
  | @scanned scan entered _ done _ _ _ henter hmoves hcomplete hconclude =>
      have hentered : entered.calls = run.calls := by
        obtain ⟨_, henter', hkeeps⟩ := Exec.gives_enter .scan run
        cases henter.symm.trans henter'
        exact hkeeps.calls
      -- whatever the order of the steps is, each of them calls the sink for a row at most
      have hdone : (env.setup query plan.orderSatisfied).LeavesScan env.sink done := by
        clear hconclude hcomplete
        induction hmoves with
        | refl => exact ⟨h.of_calls hentered, fun _ => hready.of_calls hentered⟩
        | tail _ hmove ih => exact moves_handed ih hmove
      exact conclude_handed hdone hconclude

/-- How the sink of a query has to be called: with no row after `wantsMore` has refused one, with no
more rows than LIMIT says, and, if and only if the query succeeds, once more behind the last row,
the rows having been counted. -/
structure Run.KeepsProtocol (env : Env) (query : SelectQuery) (result : Except Failure Outcome)
    (run : Run) : Prop where
  /-- The rows after which the sink wanted no more were the last. -/
  refused : ∀ rows, rows <:+ run.received → rows ≠ [] → env.sink.wantsMore rows = false →
    rows = run.received
  /-- There are no more rows than LIMIT says. -/
  limited : ∀ limit, query.limitCount? = some limit → run.received.length ≤ limit
  /-- A query that succeeds tells the sink the end, once and last, and says how many rows there
  were. -/
  succeeded : ∀ outcome, result = .ok outcome →
    run.calls = .finish :: run.received.map .push ∧ outcome.delivered = run.received.length
  /-- A query that fails only hands over rows. -/
  failed : ∀ failure, result = .error failure → run.calls = run.received.map .push

/-- After `planQuery` and `beginPlan` the sink has not been called, and it is `Ready`. -/
theorem begun_handed {context : Context} {signals : Signals} {plan : Plan} {planned begun : Run}
    (hplan : (planQuery env query).run.run (.start context signals) = (.ok plan, planned))
    (hbegin : (beginPlan env query plan).run.run planned = (.ok ⟨⟩, begun)) :
    begun.Handed env.sink query 0 ∧ begun.Ready env.sink query := by
  obtain ⟨_, hkeeps, hrun⟩ := planQuery_run env query (.start context signals)
  have hplanned := hplan.symm.trans hrun
  cases congrArg Prod.snd hplanned
  have hvalid : query.validate = .ok ⟨⟩ := (plan_ok (congrArg Prod.fst hplanned).symm).1
  have hcalls : begun.calls = [] := by
    obtain ⟨entered, deadline, stats, henter, hbegun⟩ := beginPlan_run env query plan planned
    obtain ⟨_, hentered, hkept⟩ := Exec.gives_enter .targetResolved planned
    cases henter.symm.trans hentered
    cases hbegin.symm.trans hbegun
    exact hkept.calls.trans hkeeps.calls
  exact ⟨Run.handed_nil hcalls, Run.ready_nil hcalls hvalid⟩

/-- The sink of a query is called as it has to be, `Run.KeepsProtocol`, in every execution: whatever
the route of the rows, whatever the sink answers, whatever tokens are raised meanwhile, and in
whatever order the workers of a parallel scan take their turns. -/
theorem executes_keepsProtocol {context : Context} {signals : Signals}
    {result : Except Failure Outcome} {run : Run}
    (h : Executes env query context signals result run) : run.KeepsProtocol env query result := by
  cases h with
  | unplanned hplan =>
      obtain ⟨_, hkeeps, hrun⟩ := planQuery_run env query (.start context signals)
      cases congrArg Prod.snd (hplan.symm.trans hrun)
      have h : run.Handed env.sink query 0 := Run.handed_nil hkeeps.calls
      exact ⟨h.refused, h.limited, nofun, fun _ _ => h.pushes⟩
  | failed hplan hbegin hruns =>
      obtain ⟨hhanded, hready⟩ := begun_handed hplan hbegin
      obtain ⟨delivered, h, -⟩ := hruns.handed hhanded hready
      exact ⟨h.refused, h.limited, nofun, fun _ _ => h.pushes⟩
  | succeeded hplan hbegin hruns hend =>
      obtain ⟨hhanded, hready⟩ := begun_handed hplan hbegin
      obtain ⟨_, h, hcount⟩ := hruns.handed hhanded hready
      obtain rfl := hcount _ rfl
      -- the end is told to the sink behind the rows
      cases hend
      refine ⟨h.refused, h.limited, fun outcome hok => ⟨?_, ?_⟩, nofun⟩
      · exact congrArg (SinkCall.finish :: ·) h.pushes
      · cases hok
        exact h.counted.symm

end

/-! ## A sink that wants two rows -/

/-- Four records in two clusters of the class `A`. -/
def twoClusterStore : Store := .ofChanges [
  .createClass "A" none 2 false,
  .insert "A" [("x", .int 1)],
  .insert "A" [("x", .int 2)],
  .insert "A" [("x", .int 3)],
  .insert "A" [("x", .int 4)]]

/-- An executor over `twoClusterStore` that scans in parallel, with a sink that wants no more once
it has two rows. -/
def refusingEnv : Env :=
  ⟨twoClusterStore, { Options.default with parallelMinRecords := 0, queueCapacity := 1 },
    fun _ => 0, ⟨fun rows => rows.length < 2, fun _ => false⟩⟩

/-- Three of the four records, by LIMIT. -/
def threeOfFourQuery : SelectQuery :=
  { SelectQuery.ofTarget (.ofClass "A" true) with limit := 3, parallel := true }

/-- A parallel scan for three records hands over the two that the sink of `refusingEnv` wants, and
then tells it the end. -/
theorem keepsProtocol_twoRows :
    ((refusingEnv.plan threeOfFourQuery .empty).toOption.map Plan.parallel) = some true ∧
      (runQuery refusingEnv threeOfFourQuery .empty []).2.rows.map (·.rid) =
        [some ⟨1, 0⟩, some ⟨1, 1⟩] ∧
      (runQuery refusingEnv threeOfFourQuery .empty []).2.KeepsProtocol refusingEnv threeOfFourQuery
        (runQuery refusingEnv threeOfFourQuery .empty []).1 :=
  ⟨by decide +kernel, by decide +kernel, executes_keepsProtocol (executes_runQuery ..)⟩

end RecordQuery
