import Mathlib.Logic.Relation
import RecordQuery.Proofs.Effects
import RecordQuery.Proofs.ParallelRun

/-!
# `RecordQuery.Proofs.Executions`: every execution of a query

`runQuery` is one way in which a query may go. Its clock is a function, only its sink raises a
token, and its parallel scans take their steps in the fixed order of `ParallelScan.drive`.
`Executes` is the relation of all ways. Time passes as it likes, others raise and take down tokens
before any round and any step, and the workers and the consumer of a parallel scan take turns in any
order. A claim about all executions, of the calls of the sink or of the phases, is proved of
`Executes`.

Its pieces are those of the run: `SerialLoops` for the rounds of a serial loop, `ParallelScan.Moves`
for the steps of a parallel scan, and `Plan.Runs` for what a plan may come to. `Plan.Runs` is wider
than `runPlan` in one place. A plan that is marked as parallel may go serially too. So a statement
about all executions covers a program that falls back to one thread.

What others do is modelled as a choice of the clock and the raised signals before each round or
step, and not inside of one. A round looks at them once, in its check, and so does a worker's
reading of an item.

The theorems:

* `serialRound_cases`, `ParallelScan.consume_cases`: a round, and the consumer of a parallel scan,
  hand a record to the pipeline or leave it alone; what they do beside is `Run.Quiet`, it neither
  calls the sink nor enters a phase.
* `ParallelScan.moves_drive`: a run of steps is made of moves that nobody interferes with.
* `executes_runQuery`: `runQuery` is one of the executions.
-/

set_option autoImplicit false

namespace RecordQuery

open Steps

open Exec

/-! ## Quiet steps

Most steps of a query call no sink and enter no phase. `Run.Quiet` is what an execution may do
between two steps that matter, and it is closed under doing one thing after another. -/

/-- The sink was not called, and no phase was entered: `calls` and `phases` are as before, and the
run is in the same phase. -/
structure Run.Quiet (run after : Run) : Prop where
  /-- The calls of the sink are the same. -/
  calls : after.calls = run.calls
  /-- The phases entered are the same. -/
  phases : after.phases = run.phases
  /-- The run is in the same phase. -/
  phase : after.context.phase = run.context.phase

namespace Run.Quiet

variable {run mid after : Run}

/-- A run is `Quiet` that does nothing. -/
theorem refl (run : Run) : run.Quiet run := ⟨rfl, rfl, rfl⟩

/-- One quiet part of a run after the other: `Quiet` is transitive. -/
theorem trans (h : run.Quiet mid) (h' : mid.Quiet after) : run.Quiet after :=
  ⟨h'.calls.trans h.calls, h'.phases.trans h.phases, h'.phase.trans h.phase⟩

instance : IsPreorder Run Run.Quiet where
  refl := Run.Quiet.refl
  trans _ _ _ := Run.Quiet.trans

/-- Events that are no phases may be noted, as the phases are read off the events. -/
theorem events (run : Run) (events : List Event)
    (hevents : ∀ event ∈ events, ∀ phase, event ≠ .phase phase) :
    run.Quiet { run with events := events ++ run.events } := by
  refine ⟨rfl, ?_, rfl⟩
  unfold Run.phases
  rw [List.reverse_append, List.filterMap_append]
  refine (congrArg _ (List.filterMap_eq_nil_iff.mpr fun event hevent => ?_)).trans
    (List.append_nil _)
  have hother := hevents event (List.mem_reverse.mp hevent)
  cases event with
  | phase phase => exact absurd rfl (hother phase)
  | timer _ => rfl
  | warning _ => rfl

/-- Taking notes is quiet, so all parts of a run that only take notes are (`Run.Overlooks`). -/
theorem overlooks : Run.Overlooks Run.Quiet where
  events := events
  count _ _ _ := ⟨rfl, rfl, rfl⟩

end Run.Quiet

/-- Noting a `timer` is quiet. -/
theorem quiet_time (timer : Timer) : Relates Run.Quiet (time timer) :=
  relates_time Run.Quiet.overlooks timer

/-- `count` is quiet, whatever it counts. -/
theorem quiet_count (change : Stats → Stats) : Relates Run.Quiet (count change) :=
  fun _ => ⟨rfl, rfl, rfl⟩

/-- `check` leaves a context in its phase, whatever it finds. -/
theorem Context.phase_check (context : Context) (clock : Clock) (signals : Signals) :
    (context.check clock signals).2.phase = context.phase := by
  unfold check
  split
  · rfl
  split
  · rfl
  split
  · rfl
  split
  · rfl
  dsimp only
  split
  · rfl
  split <;> rfl

/-- `check` is quiet: it may find a deadline passed, and note this. -/
theorem quiet_check (env : Env) : Relates Run.Quiet (check env) := by
  intro run
  have hphase := run.context.phase_check env.clock run.signals
  unfold check
  rw [run_bind, run_get]
  dsimp only
  generalize run.context.check env.clock run.signals = checked at hphase ⊢
  obtain ⟨failure | goOn, context⟩ := checked
  · exact ⟨rfl, rfl, hphase⟩
  · exact ⟨rfl, rfl, hphase⟩

/-- `evaluateRecord` is quiet: it counts, and calls no sink. -/
theorem quiet_evaluateRecord (evaluator : Evaluator) (record : Record) :
    Relates Run.Quiet (evaluateRecord evaluator record) := by
  intro run
  unfold evaluateRecord
  rw [run_bind, run_get]
  refine ((quiet_count _).bind fun _ => ?_) run
  split
  · exact .ite ((quiet_time _).bind fun _ => relates_pure _) (relates_pure _)
  · exact .ite ((quiet_time _).bind fun _ => relates_throw _) (relates_throw _)

/-! ## Serial loops

`SerialLoops` is `serialLoop` with a clock of its own in every round, and with others who may raise
or take down tokens between rounds. -/

/-- A round fails, leaves the pipeline alone, or hands it a record, from a run that is `Quiet` so
far. The seven turns of `RoundTurn` come down to these three. -/
theorem serialRound_cases {env : Env} {setup : PipelineSetup} {evaluator : Evaluator}
    {state : SerialState} {run after : Run} {result : Except Failure (Bool × SerialState)}
    (hround : (serialRound env setup evaluator state).run.run run = (result, after)) :
    (∃ failure, result = .error failure ∧ run.Quiet after) ∨
    (∃ more next, result = .ok (more, next) ∧ next.pipeline = state.pipeline ∧ run.Quiet after) ∨
    ∃ (item : WorkItem) (mid : Run) (more : Bool) (next : SerialState), run.Quiet mid ∧
      (state.pipeline.accept env setup (evaluator.scope item.lets) item.record).run.run mid =
        (.ok (more, next.pipeline), after) ∧
      result = .ok (more, next) := by
  -- what happens before the pipeline is quiet, and leaves it alone
  have hdraws {checked drawn : Run} {record : Except Failure (Option Record × SerialState)}
      (hcheck : (Exec.check env).run.run run = (.ok true, checked))
      (hpull : (pullRecord env setup.query.orderBy state).run.run checked = (record, drawn)) :
      run.Quiet drawn :=
    ((quiet_check env).run hcheck).trans ((relates_pullRecord Run.Quiet.overlooks _ _ _).run hpull)
  have hpipeline {checked drawn : Run} {record : Option Record} {next : SerialState}
      (hpull : (pullRecord env setup.query.orderBy state).run.run checked =
        (.ok (record, next), drawn)) : next.pipeline = state.pipeline := by
    obtain ⟨stream, pulled, -, rfl, -⟩ := pullRecord_ok hpull
    rfl
  cases serialRound_turn hround with
  | cancelled hcheck => exact .inl ⟨_, rfl, (quiet_check env).run hcheck⟩
  | halted hcheck => exact .inr (.inl ⟨_, _, rfl, rfl, (quiet_check env).run hcheck⟩)
  | broken hcheck hpull => exact .inl ⟨_, rfl, hdraws hcheck hpull⟩
  | ended hcheck hpull =>
      exact .inr (.inl ⟨_, _, rfl, hpipeline hpull, hdraws hcheck hpull⟩)
  | failed hcheck hpull hevaluate =>
      exact .inl ⟨_, rfl,
        (hdraws hcheck hpull).trans ((quiet_evaluateRecord _ _).run hevaluate)⟩
  | skipped hcheck hpull hevaluate =>
      exact .inr (.inl ⟨_, _, rfl, hpipeline hpull,
        (hdraws hcheck hpull).trans ((quiet_evaluateRecord _ _).run hevaluate)⟩)
  | @accepted _ _ mid _ record _ lets _ _ hcheck hpull hevaluate haccept =>
      rw [hpipeline hpull] at haccept
      exact .inr (.inr ⟨⟨record, lets⟩, mid, _, _,
        (hdraws hcheck hpull).trans ((quiet_evaluateRecord _ _).run hevaluate), haccept, rfl⟩)

/-- What a serial loop may come to, one constructor for each way in which a round goes. Before each
round others may have raised or taken down tokens (`signals`), and the round has a clock of its
own. -/
inductive SerialLoops (env : Env) (setup : PipelineSetup) (evaluator : Evaluator) :
    Nat → SerialState → Run → Except Failure Pipeline → Run → Prop
  /-- There are no rounds left. -/
  | out {state : SerialState} {run : Run} :
      SerialLoops env setup evaluator 0 state run (.ok state.pipeline) run
  /-- A round fails. -/
  | failed {rounds : Nat} {state : SerialState} {run after : Run} {failure : Failure}
      (clock : Clock) (signals : Signals)
      (hround : (serialRound { env with clock } setup evaluator state).run.run
        { run with signals } = (.error failure, after)) :
      SerialLoops env setup evaluator (rounds + 1) state run (.error failure) after
  /-- A round is the last one. -/
  | last {rounds : Nat} {state next : SerialState} {run after : Run}
      (clock : Clock) (signals : Signals)
      (hround : (serialRound { env with clock } setup evaluator state).run.run
        { run with signals } = (.ok (false, next), after)) :
      SerialLoops env setup evaluator (rounds + 1) state run (.ok next.pipeline) after
  /-- Other rounds follow. -/
  | goesOn {rounds : Nat} {state next : SerialState} {run mid after : Run}
      {result : Except Failure Pipeline} (clock : Clock) (signals : Signals)
      (hround : (serialRound { env with clock } setup evaluator state).run.run
        { run with signals } = (.ok (true, next), mid))
      (hrest : SerialLoops env setup evaluator rounds next mid result after) :
      SerialLoops env setup evaluator (rounds + 1) state run result after

/-- A serial loop that nobody interferes with is one of them: each round has the clock of `env` and
the signals of the run. -/
theorem serialLoops_serialLoop {env : Env} {setup : PipelineSetup} {evaluator : Evaluator}
    {rounds : Nat} {state : SerialState} {run after : Run} {result : Except Failure Pipeline}
    (hrun : (serialLoop env setup evaluator rounds state).run.run run = (result, after)) :
    SerialLoops env setup evaluator rounds state run result after := by
  -- on the rounds: each is run under the clock and with the signals of the run itself
  induction rounds generalizing state run with
  | zero =>
      cases hrun
      exact .out
  | succ rounds ih =>
      rw [serialLoop_succ, run_bind] at hrun
      rcases hround : (serialRound env setup evaluator state).run.run run with
        ⟨failure | ⟨more, next⟩, mid⟩
      · rw [hround] at hrun
        cases hrun
        exact .failed env.clock run.signals hround
      · rw [hround] at hrun
        cases more with
        | true => exact .goesOn env.clock run.signals hround (ih hrun)
        | false =>
            cases hrun
            exact .last env.clock run.signals hround

/-! ## Parallel scans

`ParallelScan.Moves` is a step of the relation of `ParallelScan`, with the same freedom. Which actor
takes it is open, and so every interleaving of workers and consumer is a sequence of moves. -/

namespace ParallelScan

/-- The `consumer` of a parallel run takes a record if `check` lets it go on, and stops
otherwise. -/
theorem consume_cases {env : Env} {setup : PipelineSetup} {evaluator : Evaluator}
    {state next : Pipeline × Run} {item : WorkItem} {result : Except Failure Bool}
    (hconsume : (Pipeline.consumer env setup evaluator).consume item state = (result, next)) :
    (state.2.Quiet next.2 ∧ next.1 = state.1 ∧ result ≠ .ok true) ∨
    ∃ (mid : Run) (more : Bool), state.2.Quiet mid ∧
      (state.1.accept env setup (evaluator.scope item.lets) item.record).run.run mid =
        (.ok (more, next.1), next.2) ∧
      result = .ok more := by
  unfold Pipeline.consumer at hconsume
  dsimp only at hconsume
  rw [run_bind] at hconsume
  -- the check comes first, and a consumer that may not go on takes nothing
  rcases hcheck : (Exec.check env).run.run state.2 with ⟨failure | goOn, checked⟩
  · rw [hcheck] at hconsume
    cases hconsume
    exact .inl ⟨(quiet_check env).run hcheck, rfl, by simp⟩
  · have hchecked := (quiet_check env).run hcheck
    rw [hcheck] at hconsume
    cases goOn with
    | false =>
        cases hconsume
        exact .inl ⟨hchecked, rfl, by simp⟩
    | true =>
        obtain ⟨more, kept, taken, haccept, -⟩ :=
          @accept_run env setup evaluator state.1 item checked
        simp only [if_true] at hconsume
        rw [haccept] at hconsume
        cases hconsume
        exact .inr ⟨checked, more, hchecked, haccept, rfl⟩

/-- A step of some actor of a parallel run, at a time of its own (`clock`), after others may have
raised or taken down tokens (`signals`). -/
def Moves (env : Env) (setup : PipelineSetup) (evaluator : Evaluator) (scan : ScanPlan)
    (state next : ParallelState (Pipeline × Run)) : Prop :=
  ∃ (clock : Clock) (signals : Signals),
    Step (({ env with clock } : Env).parallelSetup evaluator scan)
      (Pipeline.consumer { env with clock } setup evaluator)
      { state with consumer := (state.consumer.1, { state.consumer.2 with signals }) } next

/-- The steps of `drive` are moves that nobody interferes with. -/
theorem moves_drive {env : Env} {setup : PipelineSetup} {evaluator : Evaluator} {scan : ScanPlan}
    (steps : Nat) (state : ParallelState (Pipeline × Run)) :
    Relation.ReflTransGen (Moves env setup evaluator scan) state
      (drive (env.parallelSetup evaluator scan) (Pipeline.consumer env setup evaluator) steps
        state) := by
  induction steps generalizing state with
  | zero => exact .refl
  | succ steps ih =>
      unfold drive
      split
      next next hnext =>
        have hmove : Moves env setup evaluator scan state next :=
          ⟨env.clock, state.consumer.2.signals, step_of_nextStep hnext⟩
        exact .head hmove (ih next)
      · exact .refl

end ParallelScan

/-! ## Plans and queries

A query is planned, its plan begins, goes one of the ways in `Plan.Runs`, and ends. `Executes` puts
these together, and `executes_runQuery` says that `runQuery` is one of the executions. -/

/-- What a plan may come to: a count, a failure to open its source, a serial loop that fails or
ends, or the steps that `Moves` allows a parallel scan until all workers and the consumer have
ended. -/
inductive Plan.Runs (env : Env) (query : SelectQuery) (plan : Plan) (run : Run) :
    Except Failure Nat → Run → Prop
  /-- Records are counted without being read. -/
  | counted {clusters : List ClusterId} {name : String} {result : Except Failure Nat}
      {after : Run} (hsource : plan.source = .count clusters name)
      (hcount : (deliverCount env query clusters name).run.run run = (result, after)) :
      Runs env query plan run result after
  /-- The source cannot be opened. -/
  | unopened {source : Source} {failure : Failure} {after : Run}
      (hsource : plan.source = .rows source)
      (hopen : (openPlan env query plan source).run.run run = (.error failure, after)) :
      Runs env query plan run (.error failure) after
  /-- The loop over the opened stream fails. -/
  | broken {source : Source} {stream : Stream} {ordered : Bool} {failure : Failure}
      {opened after : Run} (hsource : plan.source = .rows source)
      (hopen : (openPlan env query plan source).run.run run = (.ok (stream, ordered), opened))
      (hloop : SerialLoops env (env.setup query ordered)
        (.ofPlan env.store opened.context.vars query plan) (stream.size + 1)
        ⟨stream, [], .start⟩ opened (.error failure) after) :
      Runs env query plan run (.error failure) after
  /-- The loop over the opened stream ends, and so does the pipeline. -/
  | looped {source : Source} {stream : Stream} {ordered : Bool} {pipeline : Pipeline}
      {result : Except Failure Nat} {opened ended after : Run}
      (hsource : plan.source = .rows source)
      (hopen : (openPlan env query plan source).run.run run = (.ok (stream, ordered), opened))
      (hloop : SerialLoops env (env.setup query ordered)
        (.ofPlan env.store opened.context.vars query plan) (stream.size + 1)
        ⟨stream, [], .start⟩ opened (.ok pipeline) ended)
      (hfinish : (pipeline.finish env (env.setup query ordered)).run.run ended = (result, after)) :
      Runs env query plan run result after
  /-- The workers of a parallel scan and its consumer take turns until the scan is over. -/
  | scanned {scan : ScanPlan} {entered after : Run} {done : ParallelState (Pipeline × Run)}
      {result : Except Failure Nat} (hsource : plan.source = .rows (.scan scan))
      (hparallel : plan.parallel = true)
      (henter : (Exec.enter .scan).run.run run = (.ok ⟨⟩, entered))
      (hmoves : Relation.ReflTransGen
        (ParallelScan.Moves env (env.setup query plan.orderSatisfied)
          (.ofPlan env.store entered.context.vars query plan) scan)
        (ParallelScan.start
          (env.parallelSetup (.ofPlan env.store entered.context.vars query plan) scan)
          entered.context (.start, entered)) done)
      (hcomplete : done.isComplete = true)
      (hconclude : (ParallelScan.conclude env (env.setup query plan.orderSatisfied) scan
        done).run.run entered = (result, after)) :
      Runs env query plan run result after

/-- `defaultTimeout` changes nothing but the `deadline`. -/
theorem Context.exists_defaultTimeout (context : Context) (limitMs : Nat)
    (strategy : TimeoutStrategy) :
    ∃ deadline, context.defaultTimeout limitMs strategy = { context with deadline } := by
  unfold defaultTimeout
  split
  · exact ⟨context.deadline, rfl⟩
  · exact ⟨_, rfl⟩

/-- `startDeadline` changes nothing but the `deadline` of the context. -/
theorem exists_startDeadline (env : Env) (query : SelectQuery) (run : Run) :
    ∃ deadline, (startDeadline env query).run.run run =
      (.ok ⟨⟩, { run with context := { run.context with deadline } }) := by
  unfold startDeadline Exec.update
  rw [run_modify]
  dsimp only
  -- the default comes on top of the timeout of the query, if there is one
  cases query.timeout with
  | none =>
      cases env.options.defaultTimeoutMs with
      | none => exact ⟨_, rfl⟩
      | some limitMs =>
          obtain ⟨deadline, hdeadline⟩ := run.context.exists_defaultTimeout limitMs
            env.options.timeoutStrategy
          dsimp only
          rw [hdeadline]
          exact ⟨_, rfl⟩
  | some timeout =>
      obtain ⟨ofQuery, hquery⟩ := run.context.exists_defaultTimeout timeout.1 timeout.2
      dsimp only
      rw [hquery]
      cases env.options.defaultTimeoutMs with
      | none => exact ⟨_, rfl⟩
      | some limitMs =>
          obtain ⟨deadline, hdeadline⟩ := Context.exists_defaultTimeout
            { run.context with deadline := ofQuery } limitMs env.options.timeoutStrategy
          dsimp only
          rw [hdeadline]
          exact ⟨_, rfl⟩

/-- What `runQuery` does between planning a query and running its plan: the target is resolved, the
deadline is set, and counters are noted. -/
def beginPlan (env : Env) (query : SelectQuery) (plan : Plan) : Exec Unit := do
  Exec.enter .targetResolved
  startDeadline env query
  Exec.count fun stats =>
    { stats with
      foldedPairs := stats.foldedPairs + plan.foldedPairs
      fullySorted := plan.fullySorted
      usedInOrderBy := plan.usedInOrderBy }

/-- `beginPlan` enters its phase and changes nothing else but the deadline and the counters. -/
theorem beginPlan_run (env : Env) (query : SelectQuery) (plan : Plan) (run : Run) :
    ∃ entered deadline stats,
      (Exec.enter .targetResolved).run.run run = (.ok ⟨⟩, entered) ∧
      (beginPlan env query plan).run.run run =
        (.ok ⟨⟩, { entered with context := { entered.context with deadline, stats } }) := by
  rcases henter : (Exec.enter .targetResolved).run.run run with ⟨failure | ⟨⟩, entered⟩
  · cases henter
  · obtain ⟨deadline, hdeadline⟩ := exists_startDeadline env query entered
    unfold beginPlan
    rw [run_bind, henter]
    dsimp only
    rw [run_bind, hdeadline]
    exact ⟨entered, deadline, _, rfl, rfl⟩

/-- What `runQuery` does after the plan has run: the sink is told of the end, and the outcome is put
together. -/
def endPlan (query : SelectQuery) (plan : Plan) (delivered : Nat) : Exec Outcome := do
  Exec.finishSink
  let run ← getThe Run
  return ⟨run.context.stats, plan.explain query, run.context.timedOut, delivered⟩

/-- `execute` is planning, `beginPlan`, the plan, and `endPlan`. -/
theorem execute_eq (env : Env) (query : SelectQuery) :
    execute env query = (do
      let plan ← planQuery env query
      beginPlan env query plan
      let delivered ← runPlan env query plan
      endPlan query plan delivered) := by
  unfold execute beginPlan endPlan
  simp only [bind_assoc]

/-- The executions of a query: what it may come to, whatever others do meanwhile. What others do
matters while the plan runs (`Plan.Runs`), and not before and after. -/
inductive Executes (env : Env) (query : SelectQuery) (context : Context) (signals : Signals) :
    Except Failure Outcome → Run → Prop
  /-- There is no plan for the query. -/
  | unplanned {failure : Failure} {after : Run}
      (hplan : (planQuery env query).run.run (.start context signals) = (.error failure, after)) :
      Executes env query context signals (.error failure) after
  /-- The plan fails. -/
  | failed {plan : Plan} {planned begun after : Run} {failure : Failure}
      (hplan : (planQuery env query).run.run (.start context signals) = (.ok plan, planned))
      (hbegin : (beginPlan env query plan).run.run planned = (.ok ⟨⟩, begun))
      (hruns : plan.Runs env query begun (.error failure) after) :
      Executes env query context signals (.error failure) after
  /-- The plan succeeds. -/
  | succeeded {plan : Plan} {planned begun ended after : Run} {delivered : Nat}
      {result : Except Failure Outcome}
      (hplan : (planQuery env query).run.run (.start context signals) = (.ok plan, planned))
      (hbegin : (beginPlan env query plan).run.run planned = (.ok ⟨⟩, begun))
      (hruns : plan.Runs env query begun (.ok delivered) ended)
      (hend : (endPlan query plan delivered).run.run ended = (result, after)) :
      Executes env query context signals result after

/-- `runSerial` is one of the ways in which its plan may go: nobody else changes the signals between
its rounds. -/
theorem runs_runSerial {env : Env} {query : SelectQuery} {plan : Plan} {source : Source}
    {run after : Run} {result : Except Failure Nat} (hsource : plan.source = .rows source)
    (hrun : (runSerial env query plan source).run.run run = (result, after)) :
    plan.Runs env query run result after := by
  unfold runSerial at hrun
  rw [run_bind] at hrun
  rcases hopen : (openPlan env query plan source).run.run run with
    ⟨failure | ⟨stream, ordered⟩, opened⟩
  · rw [hopen] at hrun
    cases hrun
    exact .unopened hsource hopen
  · rw [hopen] at hrun
    dsimp only at hrun
    rw [run_bind, run_get] at hrun
    replace hrun : (serialLoop env (env.setup query ordered)
        (.ofPlan env.store opened.context.vars query plan) (stream.size + 1)
        ⟨stream, [], .start⟩ >>= fun pipeline =>
          pipeline.finish env (env.setup query ordered)).run.run opened = (result, after) := hrun
    rw [run_bind] at hrun
    -- a loop that fails leaves the pipeline unfinished
    rcases hloop : (serialLoop env (env.setup query ordered)
      (.ofPlan env.store opened.context.vars query plan) (stream.size + 1)
      ⟨stream, [], .start⟩).run.run opened with ⟨failure | pipeline, ended⟩
    · rw [hloop] at hrun
      cases hrun
      exact .broken hsource hopen (serialLoops_serialLoop hloop)
    · rw [hloop] at hrun
      exact .looped hsource hopen (serialLoops_serialLoop hloop) hrun

/-- A parallel run is one of the ways in which its plan may go: `drive_isComplete` says that its
scan is over. -/
theorem runs_runParallel {env : Env} {query : SelectQuery} {plan : Plan} {scan : ScanPlan}
    {run after : Run} {result : Except Failure Nat} (hsource : plan.source = .rows (.scan scan))
    (hparallel : plan.parallel = true)
    (hrun : (runParallel env query plan scan).run.run run = (result, after)) :
    plan.Runs env query run result after := by
  unfold runParallel at hrun
  rw [run_bind] at hrun
  rcases henter : (Exec.enter .scan).run.run run with ⟨failure | ⟨⟩, entered⟩
  · cases henter
  · rw [henter] at hrun
    dsimp only at hrun
    rw [run_bind, run_get] at hrun
    have hcapacity : 0 < (env.parallelSetup (.ofPlan env.store entered.context.vars query plan)
        scan).capacity :=
      Nat.lt_of_lt_of_le Nat.one_pos (Nat.le_max_right _ _)
    exact .scanned hsource hparallel henter (ParallelScan.moves_drive _ _)
      (ParallelScan.drive_isComplete hcapacity (ParallelScan.weight_start_le ..)) hrun

/-- `runPlan` is one of the ways in which a plan may go. A parallel one it drives by one
schedule. -/
theorem runs_runPlan {env : Env} {query : SelectQuery} {plan : Plan} {run after : Run}
    {result : Except Failure Nat}
    (hrun : (runPlan env query plan).run.run run = (result, after)) :
    plan.Runs env query run result after := by
  unfold runPlan at hrun
  split at hrun
  next clusters name hsource => exact .counted hsource hrun
  next source hsource =>
    split at hrun
    next scan hparallel => exact runs_runParallel hsource hparallel hrun
    next => exact runs_runSerial hsource hrun

/-- `runQuery` is one of the executions, so what holds of all executions holds of it. -/
theorem executes_runQuery (env : Env) (query : SelectQuery) (context : Context)
    (signals : Signals) :
    Executes env query context signals (runQuery env query context signals).1
      (runQuery env query context signals).2 := by
  rcases hquery : runQuery env query context signals with ⟨result, after⟩
  unfold runQuery at hquery
  rw [execute_eq, run_bind] at hquery
  -- one case for each phase that the query may fail in
  rcases hplan : (planQuery env query).run.run (.start context signals) with
    ⟨failure | plan, planned⟩
  · rw [hplan] at hquery
    cases hquery
    exact .unplanned hplan
  rw [hplan] at hquery
  dsimp only at hquery
  rw [run_bind] at hquery
  rcases hbegin : (beginPlan env query plan).run.run planned with ⟨failure | ⟨⟩, begun⟩
  · cases hbegin
  rw [hbegin] at hquery
  dsimp only at hquery
  rw [run_bind] at hquery
  rcases hruns : (runPlan env query plan).run.run begun with ⟨failure | delivered, ended⟩
  · rw [hruns] at hquery
    cases hquery
    exact .failed hplan hbegin (runs_runPlan hruns)
  · rw [hruns] at hquery
    exact .succeeded hplan hbegin (runs_runPlan hruns) hquery

end RecordQuery
