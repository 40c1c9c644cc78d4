import RecordQuery.Proofs.Executions

/-!
# `RecordQuery.Proofs.Schedules`: what the executions of a query deliver

`runQuery` follows one schedule: a clock that is a function, no tokens but those of the sink, and
the steps of `ParallelScan.drive`. `Executes` is about all of them. This module shows that the
schedule makes no difference to which rows are delivered, as long as nobody can end the query early:
there is no deadline, and the context has no token that others could raise.

`Env.Comes` holds of a result that `runQuery` gives, and of any execution of a context without a
token. What it delivers is `Env.Drains`: the rows of the qualifying records that the stream of the
plan gives, or those that the clusters of a parallel scan hold. `Comes.drains` is stated once for
both, so the modules about answers need not say which schedule they mean.

Two things are not claimed. The order of the rows is not determined: the queue of a parallel scan
mixes those of several clusters. And the executions of a context with a token are left out, since
others may cancel them at any time; `runQuery` is still covered there, where nobody else does.

An execution of a plan may be serial also where the plan is marked as parallel, since `Plan.Runs` is
wider than `runPlan` there. `Env.Drains` therefore leaves both ways open for such a plan.

What a plan has to meet with is one hypothesis, `Plan.Unfailing`: it opens a stream, no scan fails,
and the condition has a value on every record that is read.

The theorems:

* `SerialLoops.drains`: a serial loop draws all records, at whatever times its rounds come.
* `ParallelScan.Receives.of_moves`: no move of a parallel scan loses a record.
* `Plan.Runs.drains`, `Executes.drains`: a plan and a query drain their source on every way that
  they may go.
* `Env.Comes.drains`: so does what a query comes to, whichever schedule is meant.
-/

set_option autoImplicit false

namespace RecordQuery

open Steps

/-! ## Other clocks

A clock matters to a run only by its deadline. -/

section

variable {env : Env} {run after : Run} {raised : Signals → Prop}

/-- A run that is `Idle` under one clock is so under every clock, as it has no deadline. -/
theorem Run.Idle.anytime (h : run.Idle env) (clock : Clock) : run.Idle { env with clock } :=
  ⟨h.sink, h.deadline, h.timedOut, h.cancelled⟩

/-- `Run.Idle.anytime` for whichever signals are `raised`. -/
theorem Run.IdleUnder.anytime (h : run.IdleUnder raised env) (clock : Clock) :
    run.IdleUnder raised { env with clock } :=
  fun signals hraised => (h signals hraised).anytime clock

/-- A run that goes on (`Continues`) under one clock goes on under every other one. -/
theorem Run.Continues.anytime (h : run.Continues env after) (clock : Clock) :
    run.Continues { env with clock } after :=
  ⟨h.idle.anytime clock, h.signals, h.token⟩

end

section

variable {env : Env} {setup : PipelineSetup} {evaluator : Evaluator}

/-! ## Serial loops

The proof goes along `SerialLoops`, with a round as in `serialLoop_drains`. -/

/-- A round of a loop that nobody can end (`hunder`), at its own time and under its own signals, does
what `serialRound_drains` says of an idle run. Afterwards still nobody can end the run. -/
theorem serialRound_drains_anytime (hexpand : setup.query.expand = none)
    (hlimit : setup.query.limitCount? = none)
    (hload : ∀ rid r, env.store.load rid = some r → r.rid = rid) {rounds : Nat}
    {state : SerialState} {run mid : Run} {items : List WorkItem}
    {result : Except Failure (Bool × SerialState)} {clock : Clock} {signals : Signals}
    (hround : (serialRound { env with clock } setup evaluator state).run.run
      { run with signals } = (result, mid))
    (hunder : run.IdleUnder (fun _ => True) env)
    (hdrainable : Drainable env.store.load evaluator state.stream (rounds + 1))
    (htook : Took env setup evaluator items state.pipeline run.rows) :
    ∃ more next out, result = .ok (more, next) ∧ mid.IdleUnder (fun _ => True) env ∧
      Draining env setup evaluator state items out
        (if more then next.stream.contents else .empty) next.seen next.pipeline mid.rows ∧
      (more = true → Drainable env.store.load evaluator next.stream rounds) := by
  obtain ⟨more, next, _, out, hrun, hcontinues, hdraining, hleft⟩ :=
    @serialRound_drains { env with clock } setup evaluator hexpand hlimit hload rounds state items
      { run with signals } ((hunder signals trivial).anytime clock) hdrainable htook
  cases hround.symm.trans hrun
  exact ⟨more, next, out, rfl, hunder.continues (hcontinues.anytime env.clock),
    ⟨hdraining.took, hdraining.transfer⟩, hleft⟩

/-- A serial loop that nobody can end draws all records of its stream, whatever clocks its rounds
have and whatever tokens others raise between them. `hunder` says that none of these tokens is the
context's. The induction is on `SerialLoops`, with `serialRound_drains_anytime` for each round. -/
theorem SerialLoops.drains (hexpand : setup.query.expand = none)
    (hlimit : setup.query.limitCount? = none)
    (hload : ∀ rid r, env.store.load rid = some r → r.rid = rid) {rounds : Nat}
    {state : SerialState} {run after : Run} {result : Except Failure Pipeline}
    (hloops : SerialLoops env setup evaluator rounds state run result after)
    {items : List WorkItem} (hunder : run.IdleUnder (fun _ => True) env)
    (hdrainable : Drainable env.store.load evaluator state.stream rounds)
    (htook : Took env setup evaluator items state.pipeline run.rows) :
    ∃ out pipeline seen, result = .ok pipeline ∧ after.IdleUnder (fun _ => True) env ∧
      Draining env setup evaluator state items out .empty seen pipeline after.rows := by
  induction hloops generalizing items with
  | out => exact absurd hdrainable.rounds (Nat.not_lt_zero _)
  | failed clock signals hround =>
      obtain ⟨_, _, _, hok, -⟩ :=
        serialRound_drains_anytime hexpand hlimit hload hround hunder hdrainable htook
      cases hok
  | @last _ _ next _ _ clock signals hround =>
      obtain ⟨_, _, out, hok, hmid, hdraining, -⟩ :=
        serialRound_drains_anytime hexpand hlimit hload hround hunder hdrainable htook
      cases hok
      exact ⟨out, next.pipeline, next.seen, rfl, hmid, hdraining⟩
  | goesOn clock signals hround _ ih =>
      obtain ⟨_, _, out, hok, hmid, hdraining, hleft⟩ :=
        serialRound_drains_anytime hexpand hlimit hload hround hunder hdrainable htook
      cases hok
      obtain ⟨others, pipeline, seen, hresult, hafter, hrest⟩ := ih hmid (hleft rfl) hdraining.took
      exact ⟨out ++ others, pipeline, seen, hresult, hafter, hdraining.trans hrest⟩

/-! ## Parallel scans

Each of the `Moves` is a step of the scan in another context, with another clock and other tokens.
`Receives` says nothing of either, so it is carried over to the context of the step and back. -/

namespace ParallelScan

/-- `Receives` says nothing of the clock, and nothing of the tokens raised where all may be. So it
holds after others have set both. -/
theorem Receives.anytime {scan : ScanPlan} {all : List WorkItem}
    {state : ParallelState (Pipeline × Run)}
    (h : Receives (env.parallelSetup evaluator scan) (Pipeline.consumer env setup evaluator)
      (fun _ => True) (Consumed env setup evaluator fun _ => True) all state)
    (clock : Clock) (signals : Signals) :
    Receives (({ env with clock } : Env).parallelSetup evaluator scan)
      (Pipeline.consumer { env with clock } setup evaluator) (fun _ => True)
      (Consumed { env with clock } setup evaluator fun _ => True) all
      { state with consumer := (state.consumer.1, { state.consumer.2 with signals }) } := by
  obtain ⟨taken, ⟨htook, hunder⟩, hperm⟩ := h.taken
  refine ⟨h.going, fun worker hworker => ?_, trivial, taken, ⟨htook, ?_⟩, hperm⟩
  · have hruns := h.workers worker hworker
    exact ⟨hruns.deadline, hruns.timedOut, hruns.cancelled, hruns.phase⟩
  · exact Run.IdleUnder.anytime (fun other hother => hunder other hother) clock

/-- One of the `Moves` of a parallel run keeps `Receives`: it is a step after others have set clock
and signals. -/
theorem Moves.receives {scan : ScanPlan} {all : List WorkItem}
    {state next : ParallelState (Pipeline × Run)} (hexpand : setup.query.expand = none)
    (hlimit : setup.query.limitCount? = none) (hmove : Moves env setup evaluator scan state next)
    (h : Receives (env.parallelSetup evaluator scan) (Pipeline.consumer env setup evaluator)
      (fun _ => True) (Consumed env setup evaluator fun _ => True) all state) :
    Receives (env.parallelSetup evaluator scan) (Pipeline.consumer env setup evaluator)
      (fun _ => True) (Consumed env setup evaluator fun _ => True) all next := by
  obtain ⟨clock, signals, hstep⟩ := hmove
  have hnext := step_receives (consumer_takes hexpand hlimit) (h.anytime clock signals) hstep
  exact hnext.anytime env.clock next.consumer.2.signals

/-- Any number of `Moves` keeps `Receives`, by induction on their number. -/
theorem Receives.of_moves {scan : ScanPlan} {all : List WorkItem}
    {state done : ParallelState (Pipeline × Run)} (hexpand : setup.query.expand = none)
    (hlimit : setup.query.limitCount? = none)
    (hmoves : Relation.ReflTransGen (Moves env setup evaluator scan) state done)
    (h : Receives (env.parallelSetup evaluator scan) (Pipeline.consumer env setup evaluator)
      (fun _ => True) (Consumed env setup evaluator fun _ => True) all state) :
    Receives (env.parallelSetup evaluator scan) (Pipeline.consumer env setup evaluator)
      (fun _ => True) (Consumed env setup evaluator fun _ => True) all done := by
  induction hmoves with
  | refl => exact h
  | tail _ hmove ih => exact hmove.receives hexpand hlimit ih

end ParallelScan

end

/-! ## Plans and queries

The source of the plan is drained on every way that it may go, and planning, beginning and ending a
plan deliver nothing. -/

/-- The rows are those of the qualifying records that the stream of a plan gives. With a worker per
cluster (`plan.parallel`) they may also be those of the clusters that the plan scans. -/
def Env.Drains (env : Env) (query : SelectQuery) (vars : Fields) (plan : Plan) (source : Source)
    (stream : Stream) (rows : List Row) : Prop :=
  ∃ chosen : List WorkItem,
    rows = chosen.map ((env.setup query plan.orderSatisfied).row
      (.ofPlan env.store vars query plan)) ∧
    ((∃ seen out, Transfer env.store.load stream.contents [] out .empty seen ∧
        chosen.Perm (out.filterMap (Evaluator.ofPlan env.store vars query plan).item?)) ∨
      plan.parallel = true ∧ ∃ scan, source = .scan scan ∧
        chosen.Perm ((Evaluator.ofPlan env.store vars query plan).qualifyingIn scan))

/-- Nothing fails that the plan reads. It opens to `stream`, whose scans give records only. The
condition has a value on every record, be it read from the stream or, by workers, from the clusters
of a scan. -/
structure Plan.Unfailing (env : Env) (query : SelectQuery) (vars : Fields) (plan : Plan)
    (source : Source) (stream : Stream) (ordered : Bool) : Prop where
  /-- Records are found under their own identity. -/
  load : ∀ rid r, env.store.load rid = some r → r.rid = rid
  /-- The plan reads the source. -/
  rows : plan.source = .rows source
  /-- It opens the source, or falls back. -/
  opened : plan.opened env.store query source = .ok (stream, ordered)
  /-- No scan fails. -/
  scanned : ∀ item ∈ stream.contents.scanned, ∃ r, item = .ok r
  /-- The condition has a value on what the stream gives. -/
  qualify : ∀ r, stream.contents.Gives env.store.load r →
    ∃ lets, (Evaluator.ofPlan env.store vars query plan).qualify r = .ok lets
  /-- It has one on what workers would read in its place. -/
  clusters : ∀ scan, source = .scan scan → ∀ id ∈ scan.clusters, ∃ items,
    env.store.scanCluster id scan.direction scan.range = .ok items ∧
      (Evaluator.ofPlan env.store vars query plan).Reads items

/-- What a query comes to where nobody else can end it: its run, or any of its executions
(`Executes`) where the context has no token. -/
def Env.Comes (env : Env) (query : SelectQuery) (context : Context) (signals : Signals)
    (result : Except Failure Outcome) (run : Run) : Prop :=
  (result, run) = runQuery env query context signals ∨
    context.token = none ∧ Executes env query context signals result run

section

variable {env : Env} {query : SelectQuery} {plan : Plan} {source : Source} {stream : Stream}
  {ordered : Bool}

/-- Opening a plan that is `Unfailing` gives its stream, and only counts and notes. -/
theorem Plan.Unfailing.openPlan {vars : Fields} {run opened : Run} {source' : Source}
    {found : Except Failure (Stream × Bool)}
    (h : plan.Unfailing env query vars source stream ordered)
    (hsource : plan.source = .rows source')
    (hopen : (RecordQuery.openPlan env query plan source').run.run run = (found, opened)) :
    found = .ok (stream, ordered) ∧ run.Keeps opened := by
  cases hsource.symm.trans h.rows
  obtain ⟨_, hgives, hkeeps⟩ := openPlan_gives env query plan source run
  cases hopen.symm.trans hgives
  exact ⟨h.opened, hkeeps⟩

/-- A serial loop over the stream of a plan that is `Unfailing` drains it, whatever its rounds meet
with. It starts `hkeeps` after the run of the plan has begun, with nothing taken. -/
theorem Plan.Unfailing.loops {run opened ended : Run} {found : Except Failure Pipeline}
    (h : plan.Unfailing env query run.context.vars source stream ordered) (hwhole : query.Whole)
    (hunder : run.IdleUnder (fun _ => True) env) (hrows : run.rows = [])
    (hkeeps : run.Keeps opened)
    (hloop : SerialLoops env (env.setup query ordered)
      (.ofPlan env.store opened.context.vars query plan) (stream.size + 1) ⟨stream, [], .start⟩
      opened found ended) :
    ∃ out pipeline seen, found = .ok pipeline ∧ ended.IdleUnder (fun _ => True) env ∧
      Draining env (env.setup query ordered) (.ofPlan env.store run.context.vars query plan)
        ⟨stream, [], .start⟩ [] out .empty seen pipeline ended.rows := by
  obtain ⟨hconsistent, -, hweight⟩ := Plan.opened_isFresh h.opened
  rw [hkeeps.vars] at hloop
  refine hloop.drains hwhole.expand hwhole.limit h.load (hunder.keeps hkeeps)
    ⟨hconsistent, h.scanned, h.qualify, Nat.lt_succ_of_le hweight⟩ ?_
  rw [hkeeps.rows, hrows]
  exact took_start

/-- Whatever way a plan may go, it succeeds and drains its source, where nobody can end it
(`hunder`) and nothing that it reads fails. The cases are those of `Plan.Runs`. A parallel scan is
over when all its records are used (`Receives.completes`). -/
theorem Plan.Runs.drains {run after : Run} {result : Except Failure Nat}
    (hruns : plan.Runs env query run result after) (hwhole : query.Whole)
    (hunder : run.IdleUnder (fun _ => True) env) (hrows : run.rows = [])
    (h : plan.Unfailing env query run.context.vars source stream ordered) :
    (∃ count, result = .ok count) ∧
      env.Drains query run.context.vars plan source stream after.rows := by
  cases hruns with
  | counted hcount => cases hcount.symm.trans h.rows
  | unopened hsource hopen => cases (h.openPlan hsource hopen).1
  | broken hsource hopen hloop =>
      obtain ⟨hfound, hkeeps⟩ := h.openPlan hsource hopen
      cases hfound
      obtain ⟨_, _, _, hok, -⟩ := h.loops hwhole hunder hrows hkeeps hloop
      cases hok
  | looped hsource hopen hloop hfinish =>
      obtain ⟨hfound, hkeeps⟩ := h.openPlan hsource hopen
      cases hfound
      obtain ⟨out, _, seen, hok, hended, hdraining⟩ := h.loops hwhole hunder hrows hkeeps hloop
      cases hok
      obtain ⟨count, last, hfinished, -, hdelivered⟩ := @finish_delivered _ (env.setup query ordered)
        _ _ _ _ hwhole.unwind hdraining.took
      cases hfinish.symm.trans hfinished
      obtain ⟨chosen, hchosen, hperm⟩ :=
        hdelivered (hended _ trivial) hwhole.limit hwhole.skip hwhole.grouping
      exact ⟨⟨count, rfl⟩, chosen, hchosen, .inl ⟨seen, out, hdraining.transfer, hperm⟩⟩
  | @scanned scan entered _ done _ hsource hparallel henter hmoves hcomplete hconclude =>
      cases hsource.symm.trans h.rows
      obtain ⟨entered', hgives, hkeeps⟩ := Exec.gives_enter .scan run
      cases henter.symm.trans hgives
      rw [hkeeps.vars] at hmoves
      -- the invariant holds before the first move, and every move keeps it
      have hstart := @receives_start env (env.setup query plan.orderSatisfied)
        (.ofPlan env.store run.context.vars query plan) (fun _ => True) scan entered
        (hunder.keeps hkeeps) trivial (hkeeps.rows.trans hrows)
        (h.clusters scan rfl)
      have hdone := ParallelScan.Receives.of_moves hwhole.expand hwhole.limit hmoves hstart
      obtain ⟨count, last, chosen, hconcluded, hchosen, hperm⟩ :=
        @conclude_drains _ (env.setup query plan.orderSatisfied) _ _ scan _ _ _ hwhole
          (hdone.completes hcomplete) entered
      cases hconclude.symm.trans hconcluded
      exact ⟨⟨count, rfl⟩, chosen, hchosen, .inr ⟨hparallel, scan, rfl, hperm⟩⟩

/-- `beginPlan` delivers nothing, and no deadline is set where neither the query nor the settings
have one. -/
theorem beginPlan_idle {run begun : Run} (hquery : query.timeout = none)
    (hoptions : env.options.defaultTimeoutMs = none) (hidle : run.Idle env)
    (hbegin : (beginPlan env query plan).run.run run = (.ok ⟨⟩, begun)) :
    run.Continues env begun ∧ begun.rows = run.rows ∧ begun.context.vars = run.context.vars := by
  obtain ⟨entered, hentered, hrunEntered⟩ := (Exec.gives_enter .targetResolved).step run
  obtain ⟨timed, htimed, hrows, hvars, hcontinues⟩ := startDeadline_run env query entered
  obtain ⟨counted, hgives, hcounted⟩ := Exec.gives_count (fun stats =>
    { stats with
      foldedPairs := stats.foldedPairs + plan.foldedPairs
      fullySorted := plan.fullySorted
      usedInOrderBy := plan.usedInOrderBy }) timed
  unfold beginPlan at hbegin
  rw [hrunEntered, run_bind, htimed] at hbegin
  cases hgives.symm.trans hbegin
  have htimedIdle := hcontinues hquery hoptions (hidle.keeps hentered)
  exact ⟨⟨htimedIdle.idle.keeps hcounted,
    hcounted.signals.trans (htimedIdle.signals.trans hentered.signals),
    hcounted.token.trans (htimedIdle.token.trans hentered.token)⟩,
    hcounted.rows.trans (hrows.trans hentered.rows), hcounted.vars.trans (hvars.trans hentered.vars)⟩

/-- `endPlan` delivers nothing more, and does not fail. -/
theorem endPlan_run (query : SelectQuery) (plan : Plan) (delivered : Nat) (run : Run) :
    ∃ outcome after, (endPlan query plan delivered).run.run run = (.ok outcome, after) ∧
      after.rows = run.rows := ⟨_, _, rfl, rfl⟩

/-- A context without a token (`htoken`) lets nobody cancel the run, whichever tokens others
raise. -/
theorem Run.Idle.under {run : Run} (h : run.Idle env) (htoken : run.context.token = none)
    (raised : Signals → Prop) : run.IdleUnder raised env := by
  refine fun signals _ => ⟨h.sink, h.deadline, h.timedOut, ?_⟩
  simp [Context.isCancelled, htoken]

/-- Every execution of a query that nothing hinders, and that nobody can cancel (`htoken`), succeeds
and drains the source of its plan. -/
theorem Executes.drains {context : Context} {signals : Signals} {result : Except Failure Outcome}
    {run : Run} (hexecutes : Executes env query context signals result run)
    (hunhindered : env.Unhindered query context signals) (htoken : context.token = none)
    (hplan : env.plan query context = .ok plan)
    (h : plan.Unfailing env query context.vars source stream ordered) :
    (∃ outcome, result = .ok outcome) ∧
      env.Drains query context.vars plan source stream run.rows := by
  obtain ⟨planned, hkeeps, hplanned⟩ := planQuery_run env query (.start context signals)
  rw [show env.plan query (Run.start context signals).context = .ok plan from hplan] at hplanned
  -- the plan runs from a run that nobody can end
  have hruns {begun ended : Run} {found : Except Failure Nat}
      (hbegin : (beginPlan env query plan).run.run planned = (.ok ⟨⟩, begun))
      (hruns : plan.Runs env query begun found ended) :
      (∃ count, found = .ok count) ∧
        env.Drains query context.vars plan source stream ended.rows := by
    obtain ⟨hcontinues, hrows, hvars⟩ := beginPlan_idle hunhindered.timeout
      hunhindered.defaultTimeout (hunhindered.idle.keeps hkeeps) hbegin
    have hbegun : begun.context.token = none :=
      hcontinues.token.trans (hkeeps.token.trans htoken)
    have hsame : begun.context.vars = context.vars := hvars.trans hkeeps.vars
    have hdrains := @Plan.Runs.drains env query plan source stream ordered begun ended found hruns
      hunhindered.whole (hcontinues.idle.under hbegun _) (hrows.trans hkeeps.rows) (by rwa [hsame])
    rwa [hsame] at hdrains
  cases hexecutes with
  | unplanned hfailed => cases hfailed.symm.trans hplanned
  | failed hfound hbegin hfailed =>
      cases hfound.symm.trans hplanned
      obtain ⟨⟨_, hok⟩, -⟩ := hruns hbegin hfailed
      cases hok
  | succeeded hfound hbegin hsucceeded hend =>
      cases hfound.symm.trans hplanned
      obtain ⟨-, hdrains⟩ := hruns hbegin hsucceeded
      obtain ⟨outcome, after, hended, hrows⟩ := endPlan_run query plan _ _
      cases hend.symm.trans hended
      exact ⟨⟨outcome, rfl⟩, hrows ▸ hdrains⟩

/-- What a query comes to drains the source of its plan. For the run of the query itself this is
`runQuery_drains` or `runQuery_drains_parallel`, and for an execution beside others
`Executes.drains`. -/
theorem Env.Comes.drains {context : Context} {signals : Signals} {result : Except Failure Outcome}
    {run : Run} (hcomes : env.Comes query context signals result run)
    (hunhindered : env.Unhindered query context signals)
    (hplan : env.plan query context = .ok plan)
    (hscans : plan.parallel = true → ∃ scan, source = .scan scan)
    (h : plan.Unfailing env query context.vars source stream ordered) :
    (∃ outcome, result = .ok outcome) ∧
      env.Drains query context.vars plan source stream run.rows := by
  rcases hcomes with hrun | ⟨htoken, hexecutes⟩
  · obtain rfl : result = (runQuery env query context signals).1 := congrArg Prod.fst hrun
    obtain rfl : run = (runQuery env query context signals).2 := congrArg Prod.snd hrun
    cases hparallel : plan.parallel with
    | false =>
        obtain ⟨seen, out, chosen, hok, htransfer, hrows, hperm⟩ :=
          runQuery_drains hunhindered h.load hplan hparallel h.rows h.opened h.scanned h.qualify
        exact ⟨hok, chosen, hrows, .inl ⟨seen, out, htransfer, hperm⟩⟩
    | true =>
        obtain ⟨scan, rfl⟩ := hscans hparallel
        obtain ⟨chosen, hok, hrows, hperm⟩ :=
          runQuery_drains_parallel hunhindered hplan hparallel h.rows (h.clusters scan rfl)
        exact ⟨hok, chosen, hrows, .inr ⟨hparallel, scan, rfl, hperm⟩⟩
  · exact hexecutes.drains hunhindered htoken hplan h

end

end RecordQuery
