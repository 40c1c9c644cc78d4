import Mathlib.Data.List.Chain
import RecordQuery.Proofs.CountedRows
import RecordQuery.Proofs.Executions

/-!
# `RecordQuery.Proofs.Phases`: the phases of a query

A query goes through its phases in one direction. Records come from indexes and from clusters in any
order, since a fan-out has parts of both kinds and an unreadable index leads to a scan; every other
phase is entered once, if at all. So `Phase.stage` gives the two of them the same place.

`Run.Orderly` is the invariant: the phases so far are in order, and none of them is behind a given
stage. There is a lemma for each part of a run that says to which stage it goes. `Run.Still` says
that a part enters no phase, as the serial loops and the steps of a parallel scan do. The parts that
fail stop at the stage they have reached, and `Run.EndsOrderly` says what a plan may come to: the
last phase with success, otherwise none behind the records.

The result is about all executions, `Executes`. Tokens may be raised and deadlines may pass at any
time, and the steps of a parallel scan come in any order; the phases are in order all the same. The
context has to be a fresh one, as a query does not go back to the first phase.

The theorems:

* `enter_orderly`: entering a phase of a later stage.
* `openPlan_opens`: opening a plan goes no further than to its records.
* `still_accept`: a pipeline enters no phase for a record.
* `finish_orderly`: the end of a pipeline goes through all phases that are left.
* `executes_keepsOrder`: the phases of every execution of a query.
-/

set_option autoImplicit false

namespace RecordQuery

open Steps Exec

/-- The place of a phase in the course of a query. Records come from indexes or from clusters, so
`indexStream` and `scan` have one place. -/
def Phase.stage : Phase → Nat
  | unstarted => 0
  | targetResolved => 1
  | indexStream | scan => 2
  | filtered => 3
  | grouped => 4
  | sorted => 5
  | limited => 6
  | delivered => 7

/-- The phases of a run from its start, where it is `unstarted`. -/
def Run.course (run : Run) : List Phase := .unstarted :: run.phases

/-- The phases of a run so far are in order, and none of them is behind `stage`. This is what every
part of a run preserves, for the stage that it goes to. -/
structure Run.Orderly (query : SelectQuery) (stage : Nat) (run : Run) : Prop where
  /-- No phase comes behind a later one. -/
  forward : run.course.Pairwise fun before after => before.stage ≤ after.stage
  /-- Every phase entered is a new one. -/
  changes : run.course.IsChain (· ≠ ·)
  /-- The run is in the phase that was entered last. -/
  current : run.course.getLast? = some run.context.phase
  /-- No phase is behind the stage. -/
  reached : ∀ phase ∈ run.course, phase.stage ≤ stage
  /-- Groups are made by queries that group. -/
  grouped : Phase.grouped ∈ run.phases → query.isGrouping = true

section

variable {query : SelectQuery} {stage : Nat} {run after : Run}

/-- What is `Orderly` up to a stage is so up to a later one. -/
theorem Run.Orderly.mono (h : run.Orderly query stage) {later : Nat} (hle : stage ≤ later) :
    run.Orderly query later :=
  { h with reached := fun phase hphase => (h.reached phase hphase).trans hle }

/-- The run is in a phase that is not behind the stage. It is the last of the phases that `reached`
bounds. -/
theorem Run.Orderly.stage_le (h : run.Orderly query stage) : run.context.phase.stage ≤ stage :=
  h.reached _ (List.mem_of_getLast? h.current)

/-- No phase was entered. `Run.Quiet` says in addition that the sink was not called. -/
structure Run.Still (run after : Run) : Prop where
  /-- The phases entered are the same. -/
  phases : after.phases = run.phases
  /-- The run is in the same phase. -/
  phase : after.context.phase = run.context.phase

instance : IsPreorder Run Run.Still where
  refl _ := ⟨rfl, rfl⟩
  trans _ _ _ h h' := ⟨h'.phases.trans h.phases, h'.phase.trans h.phase⟩

/-- What is `Quiet` enters no phase, so it is `Still`. -/
theorem Run.Quiet.still (h : run.Quiet after) : run.Still after := ⟨h.phases, h.phase⟩

/-- Taking notes enters no phase: events that are no phases are noted, and counters change. -/
theorem Run.Still.overlooks : Run.Overlooks Run.Still where
  events run events hevents := (Run.Quiet.events run events hevents).still
  count _ _ _ := ⟨rfl, rfl⟩

/-- Changing the `signals` that a run still meets enters no phase. -/
theorem Run.still_signals (run : Run) (signals : Signals) : run.Still { run with signals } :=
  ⟨rfl, rfl⟩

/-- Where no phase was entered, `Run.Still`, the phases are as they were. -/
theorem Run.Orderly.still (h : run.Orderly query stage) (hstill : run.Still after) :
    after.Orderly query stage := by
  have hcourse : after.course = run.course := congrArg (Phase.unstarted :: ·) hstill.phases
  exact ⟨hcourse ▸ h.forward, hcourse ▸ h.changes, by rw [hcourse, hstill.phase, h.current],
    hcourse ▸ h.reached, by rw [hstill.phases]; exact h.grouped⟩

/-- A phase of the same or a later stage may be entered, where it is not for other queries,
`hgrouped`. Entering the phase that the run is in changes nothing. -/
theorem enter_orderly (h : run.Orderly query stage) {phase : Phase} (hstage : stage ≤ phase.stage)
    (hgrouped : phase = .grouped → query.isGrouping = true)
    (henter : (Exec.enter phase).run.run run = (.ok ⟨⟩, after)) :
    after.Orderly query phase.stage ∧ after.context.phase = phase := by
  obtain rfl : (if run.context.phase == phase then run
      else { run.record (.phase phase) with context := { run.context with phase } }) = after :=
    congrArg Prod.snd henter
  -- entering the phase that the run is in notes nothing
  split
  next hsame => exact ⟨h.mono hstage, by simpa using hsame⟩
  next hother =>
    have hother : run.context.phase ≠ phase := by simpa using hother
    refine ⟨?_, rfl⟩
    have hphases : ({ run.record (.phase phase) with
        context := { run.context with phase } } : Run).phases = run.phases ++ [phase] := by
      simp [Run.phases, Run.record]
    have hcourse : ({ run.record (.phase phase) with
        context := { run.context with phase } } : Run).course = run.course ++ [phase] :=
      congrArg _ hphases
    refine ⟨?_, ?_, ?_, ?_, ?_⟩
    · rw [hcourse, List.pairwise_append]
      refine ⟨h.forward, List.pairwise_singleton _ _, fun before hbefore _ hlast => ?_⟩
      rw [List.mem_singleton.mp hlast]
      exact (h.reached before hbefore).trans hstage
    · rw [hcourse, List.isChain_append]
      refine ⟨h.changes, .singleton _, fun before hbefore _ hlast => ?_⟩
      rw [h.current] at hbefore
      cases hbefore
      cases hlast
      exact hother
    · rw [hcourse, List.getLast?_concat]
    · rw [hcourse]
      intro before hbefore
      rcases List.mem_append.mp hbefore with hbefore | hlast
      · exact (h.reached before hbefore).trans hstage
      · rw [List.mem_singleton.mp hlast]
    · rw [hphases]
      intro hmem
      rcases List.mem_append.mp hmem with hbefore | hlast
      · exact h.grouped hbefore
      · exact hgrouped (List.mem_singleton.mp hlast).symm

/-- A phase is entered before what follows: whatever follows runs from `mid`. -/
theorem step_enter {α : Type} (h : run.Orderly query stage) (phase : Phase)
    (hstage : stage ≤ phase.stage) (hgrouped : phase = .grouped → query.isGrouping = true) :
    ∃ mid, mid.Orderly query phase.stage ∧ mid.context.phase = phase ∧
      ∀ next : Unit → Exec α, (Exec.enter phase >>= next).run.run run = (next ⟨⟩).run.run mid := by
  rcases henter : (Exec.enter phase).run.run run with ⟨failure | ⟨⟩, mid⟩
  · cases henter
  · obtain ⟨hmid, hphase⟩ := enter_orderly h hstage hgrouped henter
    exact ⟨mid, hmid, hphase, fun next => by rw [run_bind, henter]⟩

end

/-! ## Opening sources

Where records come from, indexes or clusters, is told by two phases of one stage. So a fallback to a
scan keeps the order, and every source goes to that stage at most. -/

/-- The phases stay in order, and go no further than to the records of a source. As a relation
between runs it can be composed, so that `Relates` applies. -/
def Run.Opens (query : SelectQuery) (run after : Run) : Prop :=
  run.Orderly query Phase.scan.stage → after.Orderly query Phase.scan.stage

instance (query : SelectQuery) : IsPreorder Run (Run.Opens query) where
  refl _ := id
  trans _ _ _ h h' := h' ∘ h

section

variable {env : Env} {query : SelectQuery}

/-- Taking notes enters no phase, so it keeps `Run.Opens`. -/
theorem Run.opens_overlooks : Run.Overlooks (Run.Opens query) where
  events run events hevents h := h.still (Run.Still.overlooks.events run events hevents)
  count run change hchange h := h.still (Run.Still.overlooks.count run change hchange)

/-- Records may come from clusters: entering `.scan` keeps the order. -/
theorem opens_scan : Relates (Run.Opens query) (Exec.enter .scan) :=
  fun _ h => (enter_orderly h le_rfl nofun rfl).1

/-- Records may come from indexes: entering `.indexStream` keeps the order, before a fallback to a
scan or without one. -/
theorem opens_indexStream : Relates (Run.Opens query) (Exec.enter .indexStream) :=
  fun _ h => (@enter_orderly query _ _ _ h .indexStream le_rfl nofun rfl).1

/-- Opening a plan, or falling back to a scan, goes no further than to the records: both phases that
`openPlan` enters have the stage of a scan. -/
theorem openPlan_opens (plan : Plan) (source : Source) :
    Relates (Run.Opens query) (openPlan env query plan source) :=
  relates_openPlan Run.opens_overlooks opens_scan opens_indexStream env query plan source

end

/-! ## Pipelines

While records are accepted no phase is entered. At its end a pipeline goes through the phases that
are left. -/

section

variable {env : Env} {setup : PipelineSetup}

/-- `Exec.push` hands over a row and enters no phase. -/
theorem still_push (row : Row) : Relates Run.Still (Exec.push env row) := by
  intro run
  simp only [push, update, run_bind, run_modify, run_get]
  split
  · exact ⟨rfl, rfl⟩
  · exact ⟨rfl, rfl⟩

/-- `pipeline.accept` enters no phase for a record, whether it is skipped, delivered, gathered or
kept. -/
theorem still_accept (pipeline : Pipeline) (scope : Scope) (record : Record) :
    Relates Run.Still (pipeline.accept env setup scope record) :=
  Pipeline.relates_accept Run.Still.overlooks still_push pipeline scope record

/-- Gathering rows, with `groupRows` or `keptRows`, goes to the groups at most, and to them only
where the query groups. -/
theorem gather_orderly (pipeline : Pipeline) {run : Run}
    (h : run.Orderly setup.query Phase.filtered.stage) :
    ∃ rows after, (if setup.query.isGrouping then pipeline.groupRows setup
        else pipeline.keptRows env setup).run.run run = (.ok rows, after) ∧
      after.Orderly setup.query Phase.grouped.stage := by
  -- only groups have a phase of their own; kept rows stay in the phase before
  cases hgrouping : setup.query.isGrouping with
  | true =>
      obtain ⟨grouped, hgrouped, -, hrun⟩ := step_enter h .grouped (by decide) fun _ => hgrouping
      rw [if_pos rfl]
      unfold Pipeline.groupRows
      dsimp only
      rw [hrun]
      split
      · exact ⟨_, grouped, rfl, hgrouped⟩
      · exact ⟨_, _, rfl, hgrouped.still (quiet_time .sort grouped).still⟩
  | false =>
      rw [if_neg (by simp)]
      have hquiet := Pipeline.relates_keptRows Run.Quiet.overlooks env setup pipeline
      obtain ⟨after, hrun, -⟩ := @keptRows_gives env setup pipeline run
      exact ⟨_, after, hrun, (h.mono (by decide)).still (hquiet.run hrun).still⟩

/-- Gathered rows are sorted, limited and delivered, three phases that every finished query
enters. -/
theorem deliverRows_orderly (pipeline : Pipeline) (rows : List Row) {run : Run}
    (h : run.Orderly setup.query Phase.grouped.stage) :
    ∃ delivered after, (do
        Exec.enter .sorted
        Exec.enter .limited
        let done ← pipeline.deliverAll env setup rows
        Exec.enter .delivered
        return done.delivered : Exec Nat).run.run run = (.ok delivered, after) ∧
      after.Orderly setup.query Phase.delivered.stage ∧ after.context.phase = .delivered := by
  obtain ⟨sorted, hsorted, -, hrunSorted⟩ := step_enter h .sorted (by decide) nofun
  obtain ⟨limited, hlimited, -, hrunLimited⟩ := step_enter hsorted .limited (by decide) nofun
  obtain ⟨done, handed, mid, hdeliver, -⟩ := deliverAll_run env setup pipeline rows limited
  have hmid := hlimited.still
    ((Pipeline.relates_deliverAll Run.Still.overlooks still_push pipeline rows).run hdeliver)
  obtain ⟨last, hlast, hphase, hrunLast⟩ := step_enter hmid .delivered (by decide) nofun
  refine ⟨done.delivered, last, ?_, hlast, hphase⟩
  rw [hrunSorted, hrunLimited, run_bind, hdeliver]
  dsimp only
  rw [hrunLast]
  rfl

/-- `pipeline.finish` goes through the phases that are left, to the last one. A pipeline that
streams has no rows to sort, and one that does not group enters no phase for groups. -/
theorem finish_orderly (pipeline : Pipeline) {run : Run}
    (h : run.Orderly setup.query Phase.scan.stage) :
    ∃ delivered after, (pipeline.finish env setup).run.run run = (.ok delivered, after) ∧
      after.Orderly setup.query Phase.delivered.stage ∧ after.context.phase = .delivered := by
  obtain ⟨filtered, hfiltered, -, hrunFiltered⟩ := step_enter h .filtered (by decide) nofun
  unfold Pipeline.finish
  rw [hrunFiltered]
  split
  · obtain ⟨limited, hlimited, -, hrunLimited⟩ :=
      step_enter hfiltered .limited (by decide) nofun
    obtain ⟨last, hlast, hphase, hrunLast⟩ := step_enter hlimited .delivered (by decide) nofun
    refine ⟨pipeline.delivered, last, ?_, hlast, hphase⟩
    rw [hrunLimited, hrunLast]
    rfl
  · obtain ⟨rows, gathered, hgather, hgathered⟩ := @gather_orderly env setup pipeline _ hfiltered
    obtain ⟨delivered, after, hrun, hafter⟩ := @deliverRows_orderly env setup pipeline
      (Pipeline.page setup.query (unwindRows setup.query.unwind rows)) _ hgathered
    refine ⟨delivered, after, ?_, hafter⟩
    rw [← hrun]
    dsimp only
    -- the rows come of the groups or of the kept records
    cases hgrouping : setup.query.isGrouping with
    | true =>
        rw [hgrouping, if_pos rfl] at hgather
        rw [if_pos rfl, run_bind, hgather]
    | false =>
        rw [hgrouping, if_neg (by simp)] at hgather
        rw [if_neg (by simp), run_bind, hgather]

/-! ## Serial loops and parallel scans

Neither a loop nor a parallel scan enters a phase, so a run stays where opening its plan has brought
it. -/

variable {evaluator : Evaluator}

/-- A round of a serial loop enters no phase. The cases are those of `serialRound_cases`. -/
theorem serialRound_still {state : SerialState} {run after : Run}
    {result : Except Failure (Bool × SerialState)}
    (hround : (serialRound env setup evaluator state).run.run run = (result, after)) :
    run.Still after := by
  rcases serialRound_cases hround with ⟨_, _, hquiet⟩ | ⟨_, _, _, _, hquiet⟩ |
    ⟨item, mid, more, next, hquiet, haccept, _⟩
  · exact hquiet.still
  · exact hquiet.still
  · exact trans_of Run.Still hquiet.still ((still_accept _ _ _).run haccept)

/-- A serial loop enters no phase. The induction is on `SerialLoops`. -/
theorem SerialLoops.still {rounds : Nat} {state : SerialState} {run after : Run}
    {result : Except Failure Pipeline}
    (hloops : SerialLoops env setup evaluator rounds state run result after) :
    run.Still after := by
  have hround {clock : Clock} {signals : Signals} {state : SerialState} {run after : Run}
      {result : Except Failure (Bool × SerialState)}
      (hround : (serialRound { env with clock } setup evaluator state).run.run
        { run with signals } = (result, after)) : run.Still after :=
    trans_of Run.Still (run.still_signals signals) (serialRound_still hround)
  induction hloops with
  | out => exact refl_of Run.Still _
  | failed clock signals h => exact hround h
  | last clock signals h => exact hround h
  | goesOn clock signals h _ ih => exact trans_of Run.Still (hround h) ih

/-- No step that `ParallelScan.Moves` allows enters a phase, be it one of a worker or of the
consumer. -/
theorem moves_still {scan : ScanPlan} {state next : ParallelState (Pipeline × Run)}
    (hmove : ParallelScan.Moves env setup evaluator scan state next) :
    state.consumer.2.Still next.consumer.2 := by
  obtain ⟨clock, signals, place | _, hstep⟩ := hmove
  · obtain ⟨_, _, _, _, _, hconsumer, _⟩ := ParallelScan.stepWorker_moves hstep
    rw [hconsumer]
    exact ⟨rfl, rfl⟩
  · obtain ⟨-, -, -, hconsumer | ⟨item, result, -, hconsume, -⟩⟩ :=
      ParallelScan.stepConsumer_moves hstep
    · rw [hconsumer]
      exact ⟨rfl, rfl⟩
    · refine trans_of Run.Still (state.consumer.2.still_signals signals) ?_
      rcases ParallelScan.consume_cases hconsume with ⟨hquiet, -⟩ | ⟨mid, more, hquiet, haccept, -⟩
      · exact hquiet.still
      · exact trans_of Run.Still hquiet.still ((still_accept _ _ _).run haccept)

/-- `Run.joinWorker` enters no phase, for any number of workers. -/
theorem joinWorkers_still (workers : List Worker) (run : Run) :
    run.Still (workers.foldl Run.joinWorker run) := by
  induction workers generalizing run with
  | nil => exact refl_of Run.Still run
  | cons worker workers ih =>
      refine trans_of Run.Still ?_ (ih (run.joinWorker worker))
      have hquiet := Run.Quiet.overlooks.timers run (List.replicate worker.filtered .filter)
      rw [List.map_replicate] at hquiet
      exact ⟨hquiet.phases, rfl⟩

/-- How a plan ends: with success in `Phase.delivered`, the last phase, otherwise before records are
filtered. -/
def Run.EndsOrderly (query : SelectQuery) (run : Run) : Except Failure Nat → Prop
  | .ok _ => run.Orderly query Phase.delivered.stage ∧ run.context.phase = .delivered
  | .error _ => run.Orderly query Phase.scan.stage

/-- `ParallelScan.conclude` goes to the last phase, unless somebody has failed; then it stops where
the scan was. -/
theorem conclude_orderly {scan : ScanPlan} {done : ParallelState (Pipeline × Run)} {run after : Run}
    {result : Except Failure Nat} (h : done.consumer.2.Orderly setup.query Phase.scan.stage)
    (hconclude : (ParallelScan.conclude env setup scan done).run.run run = (result, after)) :
    after.EndsOrderly setup.query result := by
  have hcounted : done.consumer.2.Still (done.consumer.2.modifyStats fun stats =>
      { stats with parallelTasks := stats.parallelTasks + scan.clusters.length }) := ⟨rfl, rfl⟩
  -- folding the workers back adds up their counters, and enters no phase
  have hjoined := (h.still hcounted).still (joinWorkers_still done.workers _)
  unfold ParallelScan.conclude at hconclude
  rw [run_bind, run_set] at hconclude
  dsimp only at hconclude
  rw [run_bind] at hconclude
  rcases htime : (Exec.time .scan).run.run (done.workers.foldl Run.joinWorker
    (done.consumer.2.modifyStats fun stats =>
      { stats with parallelTasks := stats.parallelTasks + scan.clusters.length })) with
    ⟨failure | ⟨⟩, timed⟩
  · cases htime
  have htimed := hjoined.still ((quiet_time .scan).run htime).still
  rw [htime] at hconclude
  dsimp only at hconclude
  split at hconclude
  · cases hconclude
    exact htimed
  · obtain ⟨delivered, last, hfinish, hlast⟩ := finish_orderly done.consumer.1 htimed
    rw [hfinish] at hconclude
    cases hconclude
    exact hlast

end

/-! ## Every execution

The phases of a whole execution are those of its parts, one after the other. The stages keep them in
order, as each part starts where the one before it has ended at most. -/

section

variable {env : Env} {query : SelectQuery}

/-- A count goes to the last phase, unless a cluster is missing. It passes the phases of a pipeline
without one, and `hgrouping` says that it may enter the one of groups. -/
theorem deliverCount_orderly {clusters : List ClusterId} {name : String} {run after : Run}
    {result : Except Failure Nat} (hgrouping : query.isGrouping = true)
    (h : run.Orderly query Phase.targetResolved.stage)
    (hcount : (deliverCount env query clusters name).run.run run = (result, after)) :
    after.EndsOrderly query result := by
  obtain ⟨scanned, hscanned, -, hrunScanned⟩ := step_enter h .scan (by decide) nofun
  unfold deliverCount at hcount
  rw [hrunScanned] at hcount
  -- a cluster that is missing ends the run in the scan
  split at hcount
  · cases hcount
    exact hscanned
  · rw [run_bind] at hcount
    rcases htime : (Exec.time .scan).run.run scanned with ⟨failure | ⟨⟩, timed⟩
    · cases htime
    have htimed := hscanned.still ((quiet_time .scan).run htime).still
    obtain ⟨grouped, hgrouped, -, hrunGrouped⟩ :=
      step_enter htimed .grouped (by decide) fun _ => hgrouping
    obtain ⟨limited, hlimited, -, hrunLimited⟩ := step_enter hgrouped .limited (by decide) nofun
    rw [htime] at hcount
    dsimp only at hcount
    rw [hrunGrouped, hrunLimited] at hcount
    split at hcount
    · rw [run_bind] at hcount
      rcases hpush : (Exec.push env _).run.run limited with ⟨failure | wanted, pushed⟩
      · obtain ⟨_, hpushed, -⟩ := push_run env _ limited
        cases hpush.symm.trans hpushed
      obtain ⟨last, hlast, hphase, hrunLast⟩ :=
        step_enter (hlimited.still ((still_push _).run hpush)) .delivered (by decide) nofun
      rw [hpush] at hcount
      dsimp only at hcount
      rw [pure_bind, hrunLast] at hcount
      cases hcount
      exact ⟨hlast, hphase⟩
    · obtain ⟨last, hlast, hphase, hrunLast⟩ := step_enter hlimited .delivered (by decide) nofun
      rw [pure_bind, hrunLast] at hcount
      cases hcount
      exact ⟨hlast, hphase⟩

/-- On every route a plan goes through its phases in order. The cases are those of `Plan.Runs`. -/
theorem Plan.Runs.orderly {plan : Plan} {run after : Run} {result : Except Failure Nat}
    (hruns : plan.Runs env query run result after)
    (hcounts : ∀ clusters name, plan.source = .count clusters name → query.isGrouping = true)
    (h : run.Orderly query Phase.targetResolved.stage) : after.EndsOrderly query result := by
  have hrun : run.Orderly query Phase.scan.stage := h.mono (by decide)
  cases hruns with
  | counted hsource hcount => exact deliverCount_orderly (hcounts _ _ hsource) h hcount
  | unopened _ hopen => exact (openPlan_opens plan _).run hopen hrun
  | broken _ hopen hloop => exact ((openPlan_opens plan _).run hopen hrun).still hloop.still
  | @looped source stream ordered pipeline _ _ _ _ _ hopen hloop hfinish =>
      have hlooped := ((openPlan_opens plan source).run hopen hrun).still hloop.still
      obtain ⟨delivered, last, hrunLast, hlast⟩ :=
        @finish_orderly env (env.setup query ordered) pipeline _ hlooped
      rw [hfinish] at hrunLast
      cases hrunLast
      exact hlast
  | @scanned scan entered _ done _ _ _ henter hmoves hcomplete hconclude =>
      have hentered := (enter_orderly hrun le_rfl nofun henter).1
      -- whatever the order of the steps is, none of them enters a phase
      have hdone : done.consumer.2.Orderly query Phase.scan.stage := by
        clear hconclude hcomplete
        induction hmoves with
        | refl => exact hentered
        | tail _ hmove ih => exact ih.still (moves_still hmove)
      exact conclude_orderly hdone hconclude

/-- The phases of a query have to be in order: none comes behind a later one (`Phase.stage`), groups
are only made by queries that group, and the last phase is reached by the queries that succeed, and
by no others. -/
structure Run.KeepsOrder (query : SelectQuery) (result : Except Failure Outcome) (run : Run) :
    Prop where
  /-- No phase comes behind a later one. -/
  forward : run.course.Pairwise fun before after => before.stage ≤ after.stage
  /-- Every phase entered is a new one. -/
  changes : run.course.IsChain (· ≠ ·)
  /-- The run is in the phase that was entered last. -/
  current : run.course.getLast? = some run.context.phase
  /-- Groups are made by queries that group. -/
  grouped : Phase.grouped ∈ run.phases → query.isGrouping = true
  /-- The last phase is reached exactly if the query succeeds. -/
  delivered : run.context.phase = .delivered ↔ ∃ outcome, result = .ok outcome

/-- A run that has not got beyond its scan has failed, and `KeepsOrder` asks no last phase of it. -/
theorem Run.Orderly.keepsOrder {run : Run} (h : run.Orderly query Phase.scan.stage)
    (failure : Failure) : run.KeepsOrder query (.error failure) := by
  refine ⟨h.forward, h.changes, h.current, h.grouped, fun hphase => ?_, nofun⟩
  have hle := h.stage_le
  rw [hphase] at hle
  exact absurd hle (by decide)

/-- Before its first step a run is in its only phase, `unstarted` by `hfresh`. -/
theorem Run.orderly_start {context : Context} (signals : Signals)
    (hfresh : context.phase = .unstarted) :
    (Run.start context signals).Orderly query Phase.unstarted.stage where
  forward := List.pairwise_singleton _ _
  changes := .singleton _
  current := congrArg some hfresh.symm
  reached phase hphase := by
    rw [List.mem_singleton.mp hphase]
  grouped := nofun

/-- `planQuery` is quiet: it reads the store and enters no phase. -/
theorem quiet_planQuery : Relates Run.Quiet (planQuery env query) := by
  intro run
  unfold planQuery
  rw [run_bind, run_get]
  dsimp only
  split
  · exact ((quiet_time .plan).bind fun _ => relates_pure _) run
  · exact relates_throw _ run

/-- `beginPlan` resolves the target, the first phase of a query that was planned. -/
theorem beginPlan_orderly {plan : Plan} {run begun : Run}
    (h : run.Orderly query Phase.unstarted.stage)
    (hbegin : (beginPlan env query plan).run.run run = (.ok ⟨⟩, begun)) :
    begun.Orderly query Phase.targetResolved.stage := by
  obtain ⟨entered, deadline, stats, henter, hbegun⟩ := beginPlan_run env query plan run
  cases hbegin.symm.trans hbegun
  exact (@enter_orderly query _ _ _ h .targetResolved (by decide) nofun henter).1.still ⟨rfl, rfl⟩

/-- The phases of a query that starts from a fresh context, `hfresh`, are in order,
`Run.KeepsOrder`, in every execution: whatever its plan is, whichever index or cluster fails,
whenever it is cancelled or out of time, and in whatever order the workers of a parallel scan take
their turns. -/
theorem executes_keepsOrder {context : Context} {signals : Signals}
    {result : Except Failure Outcome} {run : Run} (hfresh : context.phase = .unstarted)
    (h : Executes env query context signals result run) : run.KeepsOrder query result := by
  have hstart : (Run.start context signals).Orderly query Phase.unstarted.stage :=
    Run.orderly_start signals hfresh
  -- what a plan comes to, up to the end of its query
  have hplanned {plan : Plan} {planned begun after : Run} {result : Except Failure Nat}
      (hplan : (planQuery env query).run.run (.start context signals) = (.ok plan, planned))
      (hbegin : (beginPlan env query plan).run.run planned = (.ok ⟨⟩, begun))
      (hruns : plan.Runs env query begun result after) : after.EndsOrderly query result := by
    have hquiet := quiet_planQuery.run hplan
    have hchosen : env.plan query context = .ok plan := by
      obtain ⟨_, -, hrun⟩ := planQuery_run env query (.start context signals)
      exact (congrArg Prod.fst (hplan.symm.trans hrun)).symm
    refine hruns.orderly (fun clusters name hsource => ?_)
      (beginPlan_orderly (hstart.still hquiet.still) hbegin)
    obtain ⟨className, polymorphic, -, hcolumn, -⟩ := plan_counts hchosen hsource
    exact (SelectQuery.onlyCounts hcolumn).isGrouping
  cases h with
  | unplanned hplan =>
      exact ((hstart.still (quiet_planQuery.run hplan).still).mono (by decide)).keepsOrder _
  | failed hplan hbegin hruns => exact (hplanned hplan hbegin hruns).keepsOrder _
  | succeeded hplan hbegin hruns hend =>
      obtain ⟨hended, hphase⟩ := hplanned hplan hbegin hruns
      -- telling the sink the end enters no phase
      cases hend
      exact ⟨hended.forward, hended.changes, hended.current, hended.grouped,
        fun _ => ⟨_, rfl⟩, fun _ => hphase⟩

end

/-! ## A fallback to a scan -/

/-- A class with a class below it, whose index cannot be read: `failingIndexes` names it. -/
def unreadableStore : Store := .ofChanges [
  .createClass "Animal" none 1 false,
  .createClass "Bird" (some "Animal") 1 false,
  .createIndex "Bird.legs" .notUnique ⟨"Bird", ["legs"], false, .keys⟩,
  .insert "Animal" [("legs", .int 4)],
  .insert "Bird" [("legs", .int 2)],
  .failIndex "Bird.legs" true]

/-- An executor over `unreadableStore`, with a sink that takes every row. -/
def unreadableEnv : Env := ⟨unreadableStore, .default, fun _ => 0, .collecting⟩

/-- The number of animals with two legs, as a query with `count(*)`. -/
def twoLegsQuery : SelectQuery :=
  { SelectQuery.ofTarget (.ofClass "Animal" true) with
    filter := some (.compare ⟨.field ⟨"legs", []⟩, .equals, .literal (.int 2)⟩)
    projections := [.ofAggregate .count none none] }

/-- The animals come from their cluster, the birds from the index or, as it cannot be read, with the
animals from their clusters, the `fallback` of the plan; then the query goes on to the end. -/
theorem keepsOrder_fallback :
    (runQuery unreadableEnv twoLegsQuery .empty []).2.phases =
        [.targetResolved, .scan, .indexStream, .scan, .filtered, .grouped, .sorted, .limited,
          .delivered] ∧
      (runQuery unreadableEnv twoLegsQuery .empty []).2.KeepsOrder twoLegsQuery
        (runQuery unreadableEnv twoLegsQuery .empty []).1 :=
  ⟨by decide +kernel, executes_keepsOrder rfl (executes_runQuery ..)⟩

end RecordQuery
