import RecordQuery.Proofs.Effects
import RecordQuery.Proofs.Scans
import RecordQuery.Proofs.SerialRun

/-!
# `RecordQuery.Proofs.SerialCounts`: what a serial scan counts

Records are counted where they are evaluated, in `Evaluator.evaluate`, and nowhere else: the
pipeline, the stream and the sink leave the counters of reads alone. So a serial run that scans
clusters has counted every record of the scan once, which is what the workers of a parallel scan
count together (`Interleavings`).

`Evaluator.evaluateAll` is what is counted when some records are evaluated one after the other.
`Exec.Uncounted` says of a step that it counts no record, and `Run.CountsAlike` the same of two
runs; `Run.Overlooks` carries it through all steps that only take notes. The counters are two: all
records read, and those of them that belong to the class of the target.

The theorems:

* `Pipeline.uncounted_accept`, `Pipeline.uncounted_finish`: a pipeline counts no record.
* `runSerial_counts`: the counters after a serial scan.
-/

set_option autoImplicit false

namespace RecordQuery

open Steps

/-! ## Steps that count no record

Two of the counters count records, those read and those of the class of the target. Steps that leave
these two alone are `Uncounted`. -/

/-- The records that a run has counted: `reads`, and `analyzed`, those of the class of the
target. -/
def Run.counted (run : Run) : Nat × Nat := run.context.stats.counted

namespace Exec

variable {α β : Type}

/-- The step leaves `Run.counted` as it is, whatever comes of it. -/
def Uncounted (step : Exec α) : Prop := ∀ run, (step.run.run run).2.counted = run.counted

/-- What follows a step and is `Uncounted` (`hnext`) leaves the counters of the step, also where the
step fails and nothing follows. -/
theorem counted_bind {step : Exec α} {next : α → Exec β} (hnext : ∀ a, Uncounted (next a))
    (run : Run) : ((step >>= next).run.run run).2.counted = (step.run.run run).2.counted := by
  rw [run_bind]
  rcases step.run.run run with ⟨failure | a, mid⟩
  · rfl
  · exact hnext a mid

end Exec

open Exec

/-- Two runs have the same `counted` records. -/
def Run.CountsAlike (run after : Run) : Prop := after.counted = run.counted

instance : IsPreorder Run Run.CountsAlike where
  refl _ := rfl
  trans _ _ _ h h' := h'.trans h

/-- Taking notes counts nothing, so `Run.CountsAlike` overlooks it. -/
theorem Run.CountsAlike.overlooks : Run.Overlooks Run.CountsAlike where
  events _ _ _ := rfl
  count run _ hchange := hchange run.context.stats

/-- `enter` counts nothing. -/
theorem uncounted_enter (phase : Phase) : Uncounted (enter phase) := by
  refine fun run => ?_
  show Run.counted (if _ then _ else _) = _
  split
  · rfl
  · rfl

/-- `push` hands a row to the sink and counts nothing. -/
theorem uncounted_push (env : Env) (row : Row) : Uncounted (push env row) := by
  intro run
  simp only [push, update, run_bind, run_modify, run_get]
  split
  · rfl
  · rfl

section

variable {env : Env} {setup : PipelineSetup}

/-- `accept` counts nothing: the record was counted when it was evaluated. -/
theorem Pipeline.uncounted_accept (pipeline : Pipeline) (scope : Scope) (record : Record) :
    Uncounted (pipeline.accept env setup scope record) :=
  relates_accept Run.CountsAlike.overlooks (uncounted_push env) pipeline scope record

/-- `finish` counts nothing. -/
theorem Pipeline.uncounted_finish (pipeline : Pipeline) : Uncounted (pipeline.finish env setup) :=
  relates_finish Run.CountsAlike.overlooks (uncounted_push env) uncounted_enter pipeline

end

/-! ## Records among scanned items

What is to be counted is read off the scanned items, by `evaluate` for each record in turn. -/

/-- The `scannedRecords` of items that begin with a record. -/
theorem Store.scannedRecords_cons (r : Record) (items : List ScanItem) :
    Store.scannedRecords (.ok r :: items) = r :: Store.scannedRecords items := rfl

namespace Evaluator

/-- The condition of the evaluator has a value on every record among the `items`. Items that are
failures do not matter. -/
def Evaluates (evaluator : Evaluator) (items : List ScanItem) : Prop :=
  ∀ r ∈ Store.scannedRecords items, ∃ lets, evaluator.qualify r = .ok lets

/-- The number of records among scanned items that `acceptsClass`, those of the class of the
target. -/
def countClass (evaluator : Evaluator) (items : List ScanItem) : Nat :=
  (Store.scannedRecords items).countP evaluator.acceptsClass

/-- The counters after `evaluate` of some records, one after the other. -/
def evaluateAll (evaluator : Evaluator) (records : List Record) (stats : Stats) : Stats :=
  records.foldl (fun stats record => (evaluator.evaluate record stats).stats) stats

/-- `evaluate` counts a record in `reads`, and in `analyzed` if it belongs to the class of the
target. -/
theorem stats_evaluate (evaluator : Evaluator) (record : Record) (stats : Stats) :
    (evaluator.evaluate record stats).stats.reads = stats.reads + 1 ∧
      (evaluator.evaluate record stats).stats.analyzed =
        stats.analyzed + if evaluator.acceptsClass record then 1 else 0 := by
  unfold evaluate
  dsimp only
  cases evaluator.acceptsClass record with
  | false => exact ⟨rfl, rfl⟩
  | true =>
      rw [if_neg (by simp)]
      cases evaluator.filter with
      | none => exact ⟨rfl, rfl⟩
      | some condition =>
          dsimp only
          cases condition.evaluate (evaluator.scope (evaluator.bindings record)) record <;>
            exact ⟨rfl, rfl⟩

/-- What `evaluateAll` counts for scanned records: all of them, and those of `countClass`. -/
theorem stats_evaluateAll (evaluator : Evaluator) (items : List ScanItem) (stats : Stats) :
    (evaluator.evaluateAll (Store.scannedRecords items) stats).reads =
        stats.reads + (Store.scannedRecords items).length ∧
      (evaluator.evaluateAll (Store.scannedRecords items) stats).analyzed =
        stats.analyzed + evaluator.countClass items := by
  unfold evaluateAll countClass
  generalize Store.scannedRecords items = records
  induction records generalizing stats with
  | nil => exact ⟨rfl, rfl⟩
  | cons r records ih =>
      obtain ⟨hreads, hanalyzed⟩ := evaluator.stats_evaluate r stats
      obtain ⟨hrestReads, hrestAnalyzed⟩ := ih (evaluator.evaluate r stats).stats
      rw [List.foldl_cons, hrestReads, hrestAnalyzed, hreads, hanalyzed, List.length_cons,
        List.countP_cons]
      omega

end Evaluator

/-! ## Serial scans -/

/-- `stats_evaluate` as one equation about the pair `Stats.counted`. -/
theorem Evaluator.counted_evaluate (evaluator : Evaluator) (record : Record) (stats : Stats) :
    (evaluator.evaluate record stats).stats.counted =
      (stats.counted.1 + 1, stats.counted.2 + if evaluator.acceptsClass record then 1 else 0) :=
  Prod.ext (evaluator.stats_evaluate record stats).1 (evaluator.stats_evaluate record stats).2

section

variable {env : Env} {setup : PipelineSetup} {evaluator : Evaluator}

/-- `evaluateRecord` in a run counts a record as `evaluator.evaluate` does. -/
theorem counted_evaluateRecord (record : Record) (run : Run) :
    ((evaluateRecord evaluator record).run.run run).2.counted =
      (evaluator.evaluate record run.context.stats).stats.counted := by
  let evaluation := evaluator.evaluate record run.context.stats
  unfold evaluateRecord
  rw [run_bind, run_get]
  -- the evaluation sets the counters; what follows it counts nothing
  let counted : Run := { run with context := { run.context with stats := evaluation.stats } }
  suffices hrest : Relates Run.CountsAlike (if evaluation.filtered = true then _ else _) from
    hrest counted
  have htime := relates_time Run.CountsAlike.overlooks .filter
  cases evaluation.outcome with
  | ok lets => exact .ite (htime.bind fun _ => relates_pure lets) (relates_pure lets)
  | error failure => exact .ite (htime.bind fun _ => relates_throw failure) (relates_throw failure)

/-- `pullRecord` takes a record off a stream and counts nothing. -/
theorem uncounted_pullRecord (order : List OrderItem) (state : SerialState) :
    Uncounted (pullRecord env order state) :=
  relates_pullRecord Run.CountsAlike.overlooks env order state

/-- A round of a loop over a scan counts its record, and another round follows: nothing ends the
loop early, `hidle`, and no limit does, `hlimit`. -/
theorem serialRound_counts (hlimit : setup.query.limitCount? = none) {record : Record}
    {lets : Option Fields} (hqualify : evaluator.qualify record = .ok lets) (items : List ScanItem)
    (timed : Bool) (seen : List Rid) (pipeline : Pipeline) {run : Run} (hidle : run.Idle env) :
    ∃ next after,
      (serialRound env setup evaluator ⟨.scan (.ok record :: items) timed, seen, pipeline⟩).run.run
        run = (.ok (true, ⟨.scan items timed, seen, next⟩), after) ∧
      after.Idle env ∧
      after.counted = (run.counted.1 + 1,
        run.counted.2 + if evaluator.acceptsClass record then 1 else 0) := by
  -- the record is drawn, evaluated, and taken if it qualifies; only the second step counts
  obtain ⟨drawn, hkeepsDrawn, hpulled⟩ :=
    pullRecord_run env setup.query.orderBy ⟨.scan (.ok record :: items) timed, seen, pipeline⟩ run
  have hdraw : (pullRecord env setup.query.orderBy
      ⟨.scan (.ok record :: items) timed, seen, pipeline⟩).run.run run =
      (.ok (some record, ⟨.scan items timed, seen, pipeline⟩), drawn) := hpulled
  have hdrawn := @uncounted_pullRecord env setup.query.orderBy
    ⟨.scan (.ok record :: items) timed, seen, pipeline⟩ run
  obtain ⟨mid, hevaluate, hkeeps⟩ := evaluateRecord_gives evaluator record drawn
  have hmid := @counted_evaluateRecord evaluator record drawn
  have hidleMid : mid.Idle env := (hidle.keeps hkeepsDrawn).keeps hkeeps
  rw [hdraw] at hdrawn
  rw [hevaluate, evaluator.counted_evaluate] at hmid
  have hcounted : mid.counted =
      (run.counted.1 + 1, run.counted.2 + if evaluator.acceptsClass record then 1 else 0) := by
    rw [← hdrawn]
    exact hmid
  unfold serialRound
  rw [run_bind, check_idle hidle]
  simp only [if_true]
  rw [run_bind, hdraw]
  dsimp only
  rw [run_bind, hevaluate, hqualify]
  cases lets with
  | none => exact ⟨pipeline, mid, rfl, hidleMid, hcounted⟩
  | some lets =>
      obtain ⟨more, next, taken, haccept, haccepted⟩ :=
        @accept_run env setup evaluator pipeline ⟨record, lets⟩ mid
      obtain ⟨hcontinues, hmore⟩ := haccepted.continues hidleMid
      obtain rfl := hmore hlimit
      have htaken := @Pipeline.uncounted_accept env setup pipeline (evaluator.scope lets) record mid
      rw [haccept] at htaken
      refine ⟨next, taken, ?_, hcontinues.idle, htaken.trans hcounted⟩
      dsimp only
      rw [run_bind, haccept]
      rfl

/-- A loop over a scan counts its records. The induction is on the items, with `serialRound_counts`
for each. -/
theorem serialLoop_counts (hlimit : setup.query.limitCount? = none) {items : List ScanItem}
    (hrecords : ∀ item ∈ items, ∃ r, item = .ok r) (hevaluates : evaluator.Evaluates items)
    {rounds : Nat} (hrounds : items.length < rounds) {timed : Bool} {seen : List Rid}
    {pipeline : Pipeline} {run : Run} (hidle : run.Idle env) :
    ((serialLoop env setup evaluator rounds ⟨.scan items timed, seen, pipeline⟩).run.run
        run).2.counted =
      (run.counted.1 + (Store.scannedRecords items).length,
        run.counted.2 + evaluator.countClass items) := by
  obtain ⟨rounds, rfl⟩ := Nat.exists_eq_add_of_le' (Nat.zero_lt_of_lt hrounds)
  induction items generalizing rounds timed seen pipeline run with
  | nil =>
      unfold serialLoop
      rw [run_bind, check_idle hidle]
      exact @uncounted_pullRecord env setup.query.orderBy ⟨.scan [] timed, seen, pipeline⟩ run
  | cons item items ih =>
      obtain ⟨⟨record, rfl⟩, hlater⟩ := List.forall_mem_cons.mp hrecords
      obtain ⟨⟨lets, hqualify⟩, hevaluatesLater⟩ := List.forall_mem_cons.mp hevaluates
      have hless : items.length < rounds := by simpa using hrounds
      obtain ⟨next, mid, hround, hidleMid, hcounted⟩ :=
        @serialRound_counts env setup evaluator hlimit record lets hqualify items timed seen pipeline
          run hidle
      -- the rounds suffice for another record, and for the round that finds the end
      obtain ⟨rounds, rfl⟩ := Nat.exists_eq_add_of_le' (Nat.zero_lt_of_lt hless)
      rw [serialLoop_succ, run_bind, hround]
      dsimp only
      rw [if_pos rfl, ih hlater hevaluatesLater hidleMid rounds hless, hcounted,
        Store.scannedRecords_cons, Evaluator.countClass, Evaluator.countClass,
        Store.scannedRecords_cons, List.length_cons, List.countP_cons]
      exact Prod.ext (by dsimp only; omega) (by dsimp only; omega)

/-- `openPlan` counts no record, whether it falls back or not. -/
theorem uncounted_openPlan (query : SelectQuery) (plan : Plan) (source : Source) :
    Uncounted (openPlan env query plan source) :=
  relates_openPlan Run.CountsAlike.overlooks (uncounted_enter _) (uncounted_enter _) env query plan
    source

/-- A serial run that scans clusters counts as if each record were evaluated once, in scan order,
`evaluateAll`. No item is a failure, `hrecords`, and no record fails, `hevaluates`. -/
theorem runSerial_counts {query : SelectQuery} {plan : Plan} {scan : ScanPlan} {run : Run}
    (hidle : run.Idle env) (hlimit : query.limitCount? = none) {items : List ScanItem}
    (hitems : env.store.scanClusters scan.clusters scan.direction scan.range = .ok items)
    (hrecords : ∀ item ∈ items, ∃ r, item = .ok r)
    (hevaluates : (Evaluator.ofPlan env.store run.context.vars query plan).Evaluates items) :
    ((runSerial env query plan (.scan scan)).run.run run).2.counted =
      ((Evaluator.ofPlan env.store run.context.vars query plan).evaluateAll
        (Store.scannedRecords items) run.context.stats).counted := by
  obtain ⟨opened, hopen, hkeeps⟩ := openPlan_gives env query plan (.scan scan) run
  have hopened := @uncounted_openPlan env query plan (.scan scan) run
  -- whether the scan is in order does not matter to what it counts
  obtain ⟨ordered, hstream⟩ : ∃ ordered, plan.opened env.store query (.scan scan) =
      .ok (.scan items true, ordered) := by
    unfold Plan.opened Source.opened
    rw [hitems]
    exact ⟨_, rfl⟩
  rw [hstream] at hopen
  rw [hopen] at hopened
  unfold runSerial
  rw [run_bind, hopen]
  dsimp only
  rw [run_bind, run_get]
  dsimp only
  rw [hkeeps.vars, counted_bind fun _ => Pipeline.uncounted_finish _]
  have hcounted : opened.counted = run.counted := hopened
  have hloop := @serialLoop_counts env
    ⟨query, ordered, env.options.sortSlack, env.options.limitHintThreshold⟩
    (Evaluator.ofPlan env.store run.context.vars query plan) hlimit items hrecords hevaluates
    (items.length + 1) (Nat.lt_succ_self _) true [] .start opened (hidle.keeps hkeeps)
  rw [hcounted] at hloop
  refine hloop.trans ?_
  exact (Prod.ext (Evaluator.stats_evaluateAll _ items _).1
    (Evaluator.stats_evaluateAll _ items _).2).symm

end

end RecordQuery
