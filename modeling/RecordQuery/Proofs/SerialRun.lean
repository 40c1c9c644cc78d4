import RecordQuery.Proofs.SerialRounds
import RecordQuery.Run.Execute

/-!
# `RecordQuery.Proofs.SerialRun`: what a serial run delivers

The loop of a serial run draws records from its stream and hands those that qualify to the pipeline.
Two kinds of statements are made of it.

Whatever ends the loop, the rows delivered are those of qualifying records that were drawn. `Takes`
is this invariant, and `serialLoop_takes` the induction over the rounds. It holds of runs that fail,
that a deadline ends, or whose sink wants no more.

Where nothing ends the loop early (`Run.Idle`, no LIMIT, no failing record), it draws every record
of the stream. `Drainable` says that no part of the stream fails and that there are rounds enough,
`serialRound_drains` what one round does, and `Draining.trans` puts the rounds together. `Drainable`
speaks of the function `load` by which records are found, and not of an environment, since the
environment may differ between runs of the same query.

From the loop the statements go up to `runSerial`, and to `runQuery` by `runQuery_cases`, which says
all that a query does before its plan is run. A count is a plan without a loop, and is described by
`Counted`.

The theorems:

* `serialLoop_takes`, `runSerial_delivers`: a loop, and a run, takes a part of the qualifying
  records drawn, in their order.
* `serialLoop_drains`, `runSerial_drains`: one that nothing ends early takes all of them.
* `runQuery_drains`: a query that nothing hinders delivers all qualifying records.
-/

set_option autoImplicit false

namespace RecordQuery

open Steps

/-! ## One round

A round of the loop draws a record, looks at it and hands it over. `Round` has a constructor for
each way in which it can end, and for the one in which another round follows. -/

section

variable {env : Env} {setup : PipelineSetup} {evaluator : Evaluator}

/-- The LET bindings of a record that qualifies, `none` for one that does not. What is counted in
between is left out. -/
def Evaluator.qualify (evaluator : Evaluator) (record : Record) :
    Except Failure (Option Fields) :=
  (evaluator.evaluate record .zero).outcome

/-- A record for which `qualify` gives LET bindings, with these. One that fails does not qualify
here. -/
def Evaluator.item? (evaluator : Evaluator) (record : Record) : Option WorkItem :=
  match evaluator.qualify record with
  | .ok (some lets) => some ⟨record, lets⟩
  | _ => none

/-- `item?` gives the records that `qualify` lets through, with their LET bindings. -/
theorem Evaluator.item?_eq_some_iff {evaluator : Evaluator} {record : Record} {item : WorkItem} :
    evaluator.item? record = some item ↔
      item.record = record ∧ evaluator.qualify record = .ok (some item.lets) := by
  unfold Evaluator.item?
  split
  next lets hqualify =>
    rw [hqualify]
    constructor
    · rintro ⟨⟩
      exact ⟨rfl, rfl⟩
    · rintro ⟨rfl, hlets⟩
      cases hlets
      rfl
  next hnot =>
    refine ⟨by simp, fun ⟨_, hqualify⟩ => absurd hqualify ?_⟩
    exact hnot _

/-- `qualify` does not fail on a record on which the condition of the evaluator has a value. -/
theorem Evaluator.qualify_ok {evaluator : Evaluator} {record : Record}
    (h : ∀ condition, evaluator.filter = some condition → ∃ keep,
      condition.evaluate (evaluator.scope (evaluator.bindings record)) record = .ok keep) :
    ∃ lets, evaluator.qualify record = .ok lets := by
  unfold Evaluator.qualify Evaluator.evaluate
  dsimp only
  split
  · exact ⟨_, rfl⟩
  · split
    · exact ⟨_, rfl⟩
    next condition hfilter =>
      obtain ⟨keep, hkeep⟩ := h condition hfilter
      rw [hkeep]
      exact ⟨_, rfl⟩

/-- What is counted does not matter to whether a record qualifies, so `qualify` can start from no
counts. -/
theorem outcome_evaluate (evaluator : Evaluator) (record : Record) (stats : Stats) :
    (evaluator.evaluate record stats).outcome = evaluator.qualify record := by
  unfold Evaluator.qualify Evaluator.evaluate
  dsimp only
  split
  · rfl
  · split
    · rfl
    · split <;> rfl

/-- `evaluateRecord` gives what `qualify` says, and only counts. -/
theorem evaluateRecord_gives (evaluator : Evaluator) (record : Record) :
    Exec.Gives (evaluateRecord evaluator record) (evaluator.qualify record) := by
  intro run
  let evaluation := evaluator.evaluate record run.context.stats
  have houtcome : evaluation.outcome = evaluator.qualify record := outcome_evaluate ..
  unfold evaluateRecord
  rw [run_bind, run_get, ← houtcome]
  refine (Exec.gives_count fun _ => evaluation.stats).bind ?_ run
  show Exec.Gives (if evaluation.filtered = true then _ else _) _
  -- the time is taken only where there was a filter to evaluate
  cases evaluation.outcome with
  | ok lets =>
      split
      · exact (Exec.gives_time _).bind (Exec.gives_pure lets)
      · exact Exec.gives_pure lets
  | error failure =>
      split
      · exact (Exec.gives_time _).bind (Exec.gives_throw failure)
      · exact Exec.gives_throw failure

/-- `check` lets a run that is `Idle` go on, and changes nothing. -/
theorem check_idle {run : Run} (hidle : run.Idle env) :
    (Exec.check env).run.run run = (.ok true, run) := by
  have hcheck : run.context.check env.clock run.signals = (.ok true, run.context) := by
    simp [Context.check, hidle.cancelled, hidle.timedOut, hidle.deadline]
  unfold Exec.check
  rw [run_bind, run_get]
  dsimp only
  rw [hcheck]
  rfl

/-- `check` calls no sink, so the rows stay. -/
theorem check_rows (env : Env) (run : Run) : ((Exec.check env).run.run run).2.rows = run.rows := by
  unfold Exec.check
  rw [run_bind, run_get]
  dsimp only
  rcases run.context.check env.clock run.signals with ⟨goOn | failure, context⟩ <;> rfl

/-- What a round of a serial run does: it ends the loop, or the loop goes on behind it. It is
`RoundTurn` with the steps of a round replaced by what they come to. -/
inductive Round (env : Env) (setup : PipelineSetup) (evaluator : Evaluator) (rounds : Nat)
    (state : SerialState) (run : Run) : Except Failure Pipeline → Run → Prop
  /-- A deadline or a token ends the run. -/
  | halted {result : Except Failure Pipeline} {after : Run} (hbusy : ¬run.Idle env)
      (hrows : after.rows = run.rows)
      (hresult : ∀ done, result = .ok done → done = state.pipeline) :
      Round env setup evaluator rounds state run result after
  /-- The stream fails. -/
  | broken {failure : Failure} {pulled : PullState} {after : Run}
      (hpull : (state.stream.pull setup.query.orderBy env.store.load).run.run ⟨state.seen, []⟩ =
        (.error failure, pulled))
      (hrows : after.rows = run.rows) :
      Round env setup evaluator rounds state run (.error failure) after
  /-- The stream ends. -/
  | ended {stream : Stream} {pulled : PullState} {after : Run}
      (hpull : (state.stream.pull setup.query.orderBy env.store.load).run.run ⟨state.seen, []⟩ =
        (.ok (none, stream), pulled))
      (hkeeps : after.rows = run.rows ∧ (run.Idle env → after.Idle env)) :
      Round env setup evaluator rounds state run (.ok state.pipeline) after
  /-- The record cannot be evaluated. -/
  | failed {record : Record} {stream : Stream} {pulled : PullState} {failure : Failure}
      {after : Run}
      (hpull : (state.stream.pull setup.query.orderBy env.store.load).run.run ⟨state.seen, []⟩ =
        (.ok (some record, stream), pulled))
      (hqualify : evaluator.qualify record = .error failure) (hrows : after.rows = run.rows) :
      Round env setup evaluator rounds state run (.error failure) after
  /-- The record does not qualify. -/
  | skipped {record : Record} {stream : Stream} {pulled : PullState} {mid after : Run}
      {result : Except Failure Pipeline}
      (hpull : (state.stream.pull setup.query.orderBy env.store.load).run.run ⟨state.seen, []⟩ =
        (.ok (some record, stream), pulled))
      (hqualify : evaluator.qualify record = .ok none)
      (hkeeps : mid.rows = run.rows ∧ (run.Idle env → mid.Idle env))
      (hrest : (serialLoop env setup evaluator rounds
        { state with stream, seen := pulled.seen }).run.run mid = (result, after)) :
      Round env setup evaluator rounds state run result after
  /-- The record qualifies, and the pipeline wants more or not. -/
  | accepted {record : Record} {stream : Stream} {pulled : PullState} {lets : Fields}
      {more : Bool} {pipeline : Pipeline} {mid taken after : Run}
      {result : Except Failure Pipeline}
      (hpull : (state.stream.pull setup.query.orderBy env.store.load).run.run ⟨state.seen, []⟩ =
        (.ok (some record, stream), pulled))
      (hqualify : evaluator.qualify record = .ok (some lets))
      (hkeeps : mid.rows = run.rows ∧ (run.Idle env → mid.Idle env))
      (haccept : (state.pipeline.accept env setup (evaluator.scope lets) record).run.run mid =
        (.ok (more, pipeline), taken))
      (hrest : if more then
          (serialLoop env setup evaluator rounds ⟨stream, pulled.seen, pipeline⟩).run.run taken =
            (result, after)
        else (result, after) = (.ok pipeline, taken)) :
      Round env setup evaluator rounds state run result after

/-- What `check` leaves of a run: the rows, and an idle run idle. -/
theorem check_keeps {run checked : Run} {goOn : Except Failure Bool}
    (hcheck : (Exec.check env).run.run run = (goOn, checked)) :
    checked.rows = run.rows ∧ (run.Idle env → goOn = .ok true ∧ checked.Idle env) := by
  have hrows := check_rows env run
  rw [hcheck] at hrows
  refine ⟨hrows, fun hidle => ?_⟩
  rw [check_idle hidle] at hcheck
  cases hcheck
  exact ⟨rfl, hidle⟩

/-- A loop with rounds left begins with a `Round`, by `serialRound_turn`. -/
theorem serialLoop_round {rounds : Nat} {state : SerialState} {run after : Run}
    {result : Except Failure Pipeline}
    (hrun : (serialLoop env setup evaluator (rounds + 1) state).run.run run = (result, after)) :
    Round env setup evaluator rounds state run result after := by
  rw [serialLoop_succ, run_bind] at hrun
  rcases hround : (serialRound env setup evaluator state).run.run run with ⟨outcome, mid⟩
  rw [hround] at hrun
  -- a record that was drawn leaves a run that is as idle as before
  have hdraws {checked drawn : Run} {record : Option Record} {next : SerialState}
      (hcheck : (Exec.check env).run.run run = (.ok true, checked))
      (hpull : (pullRecord env setup.query.orderBy state).run.run checked =
        (.ok (record, next), drawn)) :
      ∃ stream pulled,
        (state.stream.pull setup.query.orderBy env.store.load).run.run ⟨state.seen, []⟩ =
          (.ok (record, stream), pulled) ∧
        next = { state with stream, seen := pulled.seen } ∧
        drawn.rows = run.rows ∧ (run.Idle env → drawn.Idle env) := by
    obtain ⟨hrows, hidle⟩ := check_keeps hcheck
    obtain ⟨stream, pulled, hstream, hnext, hkeeps⟩ := pullRecord_ok hpull
    exact ⟨stream, pulled, hstream, hnext, hkeeps.rows.trans hrows,
      fun h => (hidle h).2.keeps hkeeps⟩
  -- and so does its evaluation, which says whether it qualifies
  have hevaluates {record : Record} {drawn evaluated : Run} {lets : Except Failure (Option Fields)}
      (hevaluate : (evaluateRecord evaluator record).run.run drawn = (lets, evaluated)) :
      evaluator.qualify record = lets ∧ drawn.Keeps evaluated := by
    obtain ⟨_, hgives, hkeeps⟩ := evaluateRecord_gives evaluator record drawn
    cases hevaluate.symm.trans hgives
    exact ⟨rfl, hkeeps⟩
  cases serialRound_turn hround with
  | cancelled hcheck =>
      cases hrun
      obtain ⟨hrows, hidle⟩ := check_keeps hcheck
      exact .halted (fun h => by cases (hidle h).1) hrows (by simp)
  | halted hcheck =>
      cases hrun
      obtain ⟨hrows, hidle⟩ := check_keeps hcheck
      exact .halted (fun h => by cases (hidle h).1) hrows fun done hdone => by cases hdone; rfl
  | broken hcheck hpull =>
      cases hrun
      obtain ⟨pulled, hstream, hkeeps⟩ := pullRecord_error hpull
      exact .broken hstream (hkeeps.rows.trans (check_keeps hcheck).1)
  | ended hcheck hpull =>
      cases hrun
      obtain ⟨stream, pulled, hstream, rfl, hdrawn⟩ := hdraws hcheck hpull
      exact .ended hstream hdrawn
  | failed hcheck hpull hevaluate =>
      cases hrun
      obtain ⟨stream, pulled, hstream, rfl, hrows, -⟩ := hdraws hcheck hpull
      obtain ⟨hqualify, hkeeps⟩ := hevaluates hevaluate
      exact .failed hstream hqualify (hkeeps.rows.trans hrows)
  | skipped hcheck hpull hevaluate =>
      obtain ⟨stream, pulled, hstream, rfl, hrows, hidle⟩ := hdraws hcheck hpull
      obtain ⟨hqualify, hkeeps⟩ := hevaluates hevaluate
      exact .skipped hstream hqualify
        ⟨hkeeps.rows.trans hrows, fun h => (hidle h).keeps hkeeps⟩ hrun
  | @accepted _ _ _ _ _ _ _ more _ hcheck hpull hevaluate haccept =>
      obtain ⟨stream, pulled, hstream, rfl, hrows, hidle⟩ := hdraws hcheck hpull
      obtain ⟨hqualify, hkeeps⟩ := hevaluates hevaluate
      refine .accepted hstream hqualify
        ⟨hkeeps.rows.trans hrows, fun h => (hidle h).keeps hkeeps⟩ haccept ?_
      cases more with
      | true => exact hrun
      | false => exact hrun.symm

/-! ## The loop

Two statements are made of the loop, both by induction on its rounds. `Takes` says what it can take
at most, however it ends; `Draining` that it takes everything where nothing ends it. -/

/-- What a loop takes from its stream: the records `out` that were drawn, and `more`, those of them
that qualify as far as they reached the pipeline. The last record drawn may be missing, if it ends
the loop. -/
structure Takes (env : Env) (setup : PipelineSetup) (evaluator : Evaluator) (state : SerialState)
    (items : List WorkItem) (out : List Record) (more : List WorkItem) (pipeline : Pipeline)
    (rows : List Row) : Prop where
  /-- The records come off the stream. -/
  draws : ∃ stream seen,
    Stream.Draws setup.query.orderBy env.store.load state.stream state.seen out stream seen
  /-- The pipeline gets drawn records that qualify, in their order. -/
  sublist : more.Sublist (out.filterMap evaluator.item?)
  /-- The pipeline has taken them. -/
  took : Took env setup evaluator (items ++ more) pipeline rows

/-- A loop that ends at once `Takes` nothing. -/
theorem Takes.nil {state : SerialState} {items : List WorkItem} {rows : List Row}
    (htook : Took env setup evaluator items state.pipeline rows) :
    Takes env setup evaluator state items [] [] state.pipeline rows where
  draws := ⟨_, _, .nil _ _⟩
  sublist := .refl _
  took := by simpa using htook

/-- A loop takes a part of the qualifying records that it draws, in their order. The induction is on
the rounds, and `Accepted.took` is the step. -/
theorem serialLoop_takes (hexpand : setup.query.expand = none) {rounds : Nat}
    {state : SerialState} {items : List WorkItem} {run after : Run}
    {result : Except Failure Pipeline}
    (htook : Took env setup evaluator items state.pipeline run.rows)
    (hrun : (serialLoop env setup evaluator rounds state).run.run run = (result, after)) :
    ∃ out more pipeline, Takes env setup evaluator state items out more pipeline after.rows ∧
      ∀ done, result = .ok done → done = pipeline := by
  -- each round takes one record off the stream, so the induction is on the rounds
  induction rounds generalizing state items run with
  | zero =>
      cases hrun
      exact ⟨[], [], _, .nil htook, fun done hdone => by cases hdone; rfl⟩
  | succ rounds ih =>
      cases serialLoop_round hrun with
      | halted _ hrows hresult => exact ⟨[], [], _, .nil (hrows ▸ htook), hresult⟩
      | broken _ hrows => exact ⟨[], [], _, .nil (hrows ▸ htook), by simp⟩
      | ended _ hkeeps =>
          exact ⟨[], [], _, .nil (hkeeps.1 ▸ htook), fun done hdone => by cases hdone; rfl⟩
      | failed _ _ hrows => exact ⟨[], [], _, .nil (hrows ▸ htook), by simp⟩
      | @skipped record _ _ _ _ _ hpull hqualify hkeeps hrest =>
          obtain ⟨out, more, pipeline, htakes, hresult⟩ := ih (hkeeps.1 ▸ htook) hrest
          obtain ⟨stream, seen, hdraws⟩ := htakes.draws
          have hitem : evaluator.item? record = none := by simp [Evaluator.item?, hqualify]
          refine ⟨record :: out, more, pipeline, ⟨⟨stream, seen, .cons hpull hdraws⟩, ?_,
            htakes.took⟩, hresult⟩
          rw [List.filterMap_cons_none hitem]
          exact htakes.sublist
      | @accepted record stream pulled lets more pipeline mid taken _ _ hpull hqualify hkeeps
          haccept hrest =>
          have htook' := (accepted_of_run ⟨record, lets⟩ haccept).took hexpand (hkeeps.1 ▸ htook)
          have hitem : evaluator.item? record = some ⟨record, lets⟩ :=
            Evaluator.item?_eq_some_iff.mpr ⟨rfl, hqualify⟩
          cases more with
          | false =>
              cases hrest
              refine ⟨[record], [⟨record, lets⟩], pipeline, ⟨⟨_, _, .cons hpull (.nil _ _)⟩, ?_,
                htook'⟩, fun done hdone => by cases hdone; rfl⟩
              rw [List.filterMap_cons_some hitem]
              exact .refl _
          | true =>
              obtain ⟨out, others, last, htakes, hresult⟩ := ih htook' hrest
              obtain ⟨stream, seen, hdraws⟩ := htakes.draws
              refine ⟨record :: out, ⟨record, lets⟩ :: others, last,
                ⟨⟨stream, seen, .cons hpull hdraws⟩, ?_, by simpa using htakes.took⟩, hresult⟩
              rw [List.filterMap_cons_some hitem]
              exact htakes.sublist.cons_cons _

/-- A stream whose scans and records do not fail, with more rounds than it gives records. So a loop
with that many `rounds` ends by the end of the stream. -/
structure Drainable (load : Rid → Option Record) (evaluator : Evaluator) (stream : Stream)
    (rounds : Nat) : Prop where
  /-- The stream is consistent. -/
  consistent : stream.Consistent
  /-- No scan fails. -/
  scanned : ∀ item ∈ stream.contents.scanned, ∃ r, item = .ok r
  /-- No record fails. -/
  qualifies : ∀ r, stream.contents.Gives load r → ∃ lets, evaluator.qualify r = .ok lets
  /-- There are more rounds than records. -/
  rounds : stream.contents.weight < rounds

/-- What a pull leaves of such a stream is such a stream, with one round less: `Transfer.weight_le`
takes the record off the weight. -/
theorem Drainable.pull {load : Rid → Option Record} {order : List OrderItem} {stream rest : Stream}
    {rounds : Nat} (h : Drainable load evaluator stream (rounds + 1))
    (hload : ∀ rid r, load rid = some r → r.rid = rid) {seen : List Rid} {record : Record}
    {pulled : PullState}
    (hpull : (stream.pull order load).run.run ⟨seen, []⟩ = (.ok (some record, rest), pulled)) :
    Transfer load stream.contents seen [record] rest.contents pulled.seen ∧
      Drainable load evaluator rest rounds := by
  have hspec := Stream.pull_spec hload order h.consistent ⟨seen, []⟩
  rw [hpull] at hspec
  obtain ⟨htransfer, hleft, -, -⟩ := hspec
  refine ⟨htransfer, hleft, fun item hitem => ?_, fun r hr => ?_, ?_⟩
  · obtain ⟨scan, lookup, dropped, hmoves⟩ := htransfer
    exact h.scanned item (hmoves.scanned.mem_iff.mpr (List.mem_append_right _ hitem))
  · exact h.qualifies r (htransfer.gives (.inr hr))
  · -- the record that was given weighed one
    have hless := h.rounds
    have hweight := htransfer.weight_le
    simp only [Option.toList_some, List.length_singleton] at hweight
    omega

/-- What the rounds of a loop that nothing ends early have done. They have drawn the records `out`
off the stream, `left` is what is left of it, and the pipeline has taken those records that
qualify. -/
structure Draining (env : Env) (setup : PipelineSetup) (evaluator : Evaluator)
    (state : SerialState) (items : List WorkItem) (out : List Record) (left : Contents)
    (seen : List Rid) (pipeline : Pipeline) (rows : List Row) : Prop where
  /-- The pipeline has taken the records that qualify. -/
  took : Took env setup evaluator (items ++ out.filterMap evaluator.item?) pipeline rows
  /-- The records came off the stream, and `left` is what is left of it. -/
  transfer : Transfer env.store.load state.stream.contents state.seen out left seen

/-- A round of a loop that nothing ends early draws one record off its stream, and another round
follows; or the stream is empty, and the round is the last one. `hexpand` and `hlimit` are what
`Accepted.took` and `Accepted.continues` ask for. -/
theorem serialRound_drains (hexpand : setup.query.expand = none)
    (hlimit : setup.query.limitCount? = none)
    (hload : ∀ rid r, env.store.load rid = some r → r.rid = rid) {rounds : Nat}
    {state : SerialState} {items : List WorkItem} {run : Run} (hidle : run.Idle env)
    (hdrainable : Drainable env.store.load evaluator state.stream (rounds + 1))
    (htook : Took env setup evaluator items state.pipeline run.rows) :
    ∃ more next after out,
      (serialRound env setup evaluator state).run.run run = (.ok (more, next), after) ∧
      run.Continues env after ∧
      Draining env setup evaluator state items out
        (if more then next.stream.contents else .empty) next.seen next.pipeline after.rows ∧
      (more = true → Drainable env.store.load evaluator next.stream rounds) := by
  have hpullSpec :=
    Stream.pull_spec hload setup.query.orderBy hdrainable.consistent ⟨state.seen, []⟩
  -- the check leaves an idle run as it is
  have hchecked {goOn : Except Failure Bool} {checked : Run}
      (hcheck : (Exec.check env).run.run run = (goOn, checked)) : goOn = .ok true ∧ checked = run := by
    rw [check_idle hidle] at hcheck
    cases hcheck
    exact ⟨rfl, rfl⟩
  have hqualifies {record : Record} {drawn mid : Run} {lets : Except Failure (Option Fields)}
      (hevaluate : (evaluateRecord evaluator record).run.run drawn = (lets, mid)) :
      evaluator.qualify record = lets ∧ drawn.Keeps mid := by
    obtain ⟨_, hgives, hkeeps⟩ := evaluateRecord_gives evaluator record drawn
    cases hevaluate.symm.trans hgives
    exact ⟨rfl, hkeeps⟩
  rcases hround : (serialRound env setup evaluator state).run.run run with ⟨result, after⟩
  cases serialRound_turn hround with
  | cancelled hcheck | halted hcheck => cases (hchecked hcheck).1
  | broken hcheck hpull =>
      obtain ⟨pulled, hstream, -⟩ := pullRecord_error hpull
      rw [hstream] at hpullSpec
      obtain ⟨r, hr⟩ := hdrainable.scanned _ hpullSpec
      cases hr
  | ended hcheck hpull =>
      obtain ⟨-, rfl⟩ := hchecked hcheck
      obtain ⟨stream, pulled, hstream, rfl, hkeeps⟩ := pullRecord_ok hpull
      rw [hstream] at hpullSpec
      obtain ⟨htransfer, -, -, hempty⟩ := hpullSpec
      rw [hempty rfl] at htransfer
      refine ⟨false, _, after, [], rfl, hidle.continues hkeeps, ⟨?_, htransfer⟩, by simp⟩
      rw [hkeeps.rows]
      simpa using htook
  | @failed _ _ _ record _ _ hcheck hpull hevaluate =>
      obtain ⟨stream, pulled, hstream, -, -⟩ := pullRecord_ok hpull
      obtain ⟨hfailed, -⟩ := hqualifies hevaluate
      obtain ⟨htransfer, -⟩ := hdrainable.pull hload hstream
      obtain ⟨lets, hlets⟩ := hdrainable.qualifies record (htransfer.gives (.inl (by simp)))
      rw [hlets] at hfailed
      cases hfailed
  | @skipped _ _ _ record _ hcheck hpull hevaluate =>
      obtain ⟨-, rfl⟩ := hchecked hcheck
      obtain ⟨stream, pulled, hstream, rfl, hdrawn⟩ := pullRecord_ok hpull
      obtain ⟨hskipped, hmid⟩ := hqualifies hevaluate
      obtain ⟨htransfer, hleft⟩ := hdrainable.pull hload hstream
      have hkeeps := hdrawn.trans hmid
      have hitem : evaluator.item? record = none := by simp [Evaluator.item?, hskipped]
      refine ⟨true, _, after, [record], rfl, hidle.continues hkeeps, ⟨?_, htransfer⟩,
        fun _ => hleft⟩
      rw [List.filterMap_cons_none hitem, hkeeps.rows]
      simpa using htook
  | @accepted _ _ mid _ record _ lets more pipeline hcheck hpull hevaluate haccept =>
      obtain ⟨-, rfl⟩ := hchecked hcheck
      obtain ⟨stream, pulled, hstream, rfl, hdrawn⟩ := pullRecord_ok hpull
      obtain ⟨hqualified, hmid⟩ := hqualifies hevaluate
      obtain ⟨htransfer, hleft⟩ := hdrainable.pull hload hstream
      have hkeeps := hdrawn.trans hmid
      have haccepted := accepted_of_run ⟨record, lets⟩ haccept
      obtain ⟨hcontinues, hmore⟩ := haccepted.continues (hidle.keeps hkeeps)
      obtain rfl := hmore hlimit
      have hitem : evaluator.item? record = some ⟨record, lets⟩ :=
        Evaluator.item?_eq_some_iff.mpr ⟨rfl, hqualified⟩
      refine ⟨true, _, after, [record], rfl, ⟨hcontinues.idle,
        hcontinues.signals.trans hkeeps.signals, hcontinues.token.trans hkeeps.token⟩,
        ⟨?_, htransfer⟩, fun _ => hleft⟩
      rw [List.filterMap_cons_some hitem]
      rw [← hkeeps.rows] at htook
      exact haccepted.took hexpand htook

/-- The records that a round has drawn, `out`, come before those that the following rounds draw,
`others`. -/
theorem Draining.trans {state next : SerialState} {items : List WorkItem} {out others : List Record}
    {left : Contents} {seen : List Rid} {pipeline : Pipeline} {rows rows' : List Row}
    (h : Draining env setup evaluator state items out next.stream.contents next.seen next.pipeline
      rows)
    (h' : Draining env setup evaluator next (items ++ out.filterMap evaluator.item?) others left seen
      pipeline rows') :
    Draining env setup evaluator state items (out ++ others) left seen pipeline rows' where
  took := by
    rw [List.filterMap_append, ← List.append_assoc]
    exact h'.took
  transfer := h.transfer.trans h'.transfer

/-- A loop that nothing ends early draws all records of its stream and takes all of them that
qualify. The induction is on the rounds, with `serialRound_drains` and `Draining.trans`. -/
theorem serialLoop_drains (hexpand : setup.query.expand = none)
    (hlimit : setup.query.limitCount? = none)
    (hload : ∀ rid r, env.store.load rid = some r → r.rid = rid) {rounds : Nat}
    {state : SerialState} {items : List WorkItem} {run : Run} (hidle : run.Idle env)
    (hdrainable : Drainable env.store.load evaluator state.stream rounds)
    (htook : Took env setup evaluator items state.pipeline run.rows) :
    ∃ out pipeline after seen,
      (serialLoop env setup evaluator rounds state).run.run run = (.ok pipeline, after) ∧
      after.Idle env ∧
      Draining env setup evaluator state items out .empty seen pipeline after.rows := by
  -- a round draws one record, and what is left can be drained in the rounds that are left
  induction rounds generalizing state items run with
  | zero => exact absurd hdrainable.rounds (Nat.not_lt_zero _)
  | succ rounds ih =>
      obtain ⟨more, next, mid, out, hround, hcontinues, hdraining, hleft⟩ :=
        serialRound_drains hexpand hlimit hload hidle hdrainable htook
      rw [serialLoop_succ, run_bind, hround]
      cases more with
      | false => exact ⟨out, next.pipeline, mid, next.seen, rfl, hcontinues.idle, hdraining⟩
      | true =>
          obtain ⟨others, pipeline, after, seen, hrun, hafter, hrest⟩ :=
            ih hcontinues.idle (hleft rfl) hdraining.took
          exact ⟨out ++ others, pipeline, after, seen, hrun, hafter, hdraining.trans hrest⟩

end

/-! ## The run

A run opens its plan, falls back where that fails, and feeds the loop from what it has opened. A
plan that counts has no loop, and delivers one row. -/

/-- What a pipeline `Took` before its end counts as `Delivered` if it ends there. It is what is
delivered when the run fails. -/
theorem Took.delivered {env : Env} {setup : PipelineSetup} {evaluator : Evaluator}
    {items : List WorkItem} {pipeline : Pipeline} {rows : List Row}
    (h : Took env setup evaluator items pipeline rows) :
    Delivered env setup evaluator items rows := by
  unfold Took at h
  unfold Delivered
  split at h
  next hgrouping =>
    rw [if_pos hgrouping, h.1]
    simp
  next hgrouping =>
    rw [if_neg hgrouping]
    split at h
    -- a stream is never sorted, so the order of what it gave is not in question
    next hstreams =>
      have hsub := List.drop_sublist setup.query.skipCount items
      refine ⟨_, h.2, hsub.subperm, fun _ => hsub, fun hsorts => ?_⟩
      simp [PipelineSetup.streams, hsorts] at hstreams
    · exact ⟨[], by rw [h.1]; rfl, List.nil_subperm, fun _ => List.nil_sublist _,
        fun _ _ _ _ => .nil⟩

/-- How the pipeline of a serial run is set up. `ordered` says that the records come in the order
asked for already. -/
def Env.setup (env : Env) (query : SelectQuery) (ordered : Bool) : PipelineSetup :=
  ⟨query, ordered, env.options.sortSlack, env.options.limitHintThreshold⟩

/-- What a run delivers from the stream that its plan opens: rows of qualifying records, `items`,
among those that were drawn, `out`. -/
structure Delivers (env : Env) (query : SelectQuery) (plan : Plan) (vars : Fields)
    (stream : Stream) (ordered : Bool) (out : List Record) (items : List WorkItem)
    (rows : List Row) : Prop where
  /-- The records come off the stream. -/
  draws : ∃ last seen, Stream.Draws query.orderBy env.store.load stream [] out last seen
  /-- The accepted records were drawn and qualify. -/
  sublist : items.Sublist (out.filterMap (Evaluator.ofPlan env.store vars query plan).item?)
  /-- The rows are those of accepted records. -/
  delivered : Delivered env (env.setup query ordered) (.ofPlan env.store vars query plan) items rows

section

variable {env : Env} {query : SelectQuery} {plan : Plan} {source : Source} {run : Run}

/-- The inversion of `runSerial`: it opens its plan, loops over the stream, and ends the pipeline.
Opening changes no variable, so the evaluator is that of the run before. -/
theorem runSerial_run (env : Env) (query : SelectQuery) (plan : Plan) (source : Source)
    (run : Run) :
    ∃ opened, run.Keeps opened ∧ (runSerial env query plan source).run.run run =
      match plan.opened env.store query source with
      | .error failure => (.error failure, opened)
      | .ok (stream, ordered) =>
          (serialLoop env (env.setup query ordered)
            (Evaluator.ofPlan env.store run.context.vars query plan) (stream.size + 1)
            ⟨stream, [], .start⟩ >>= fun pipeline =>
              pipeline.finish env (env.setup query ordered)).run.run opened := by
  obtain ⟨opened, hopen, hkeeps⟩ := openPlan_gives env query plan source run
  refine ⟨opened, hkeeps, ?_⟩
  unfold runSerial
  rw [run_bind, hopen]
  -- opening changes no variable, so that the evaluator is that of before
  rcases plan.opened env.store query source with failure | ⟨stream, ordered⟩
  · rfl
  · dsimp only
    rw [run_bind, run_get]
    dsimp only
    rw [hkeeps.vars]
    rfl

/-- `runSerial` delivers nothing, or what `Delivers` allows: rows of qualifying records that were
drawn from the stream that its plan opens, whether it fails or not. -/
theorem runSerial_delivers (hexpand : query.expand = none) (hunwind : query.unwind = [])
    (hrows : run.rows = []) :
    ((runSerial env query plan source).run.run run).2.rows = [] ∨
      ∃ stream ordered out items,
        plan.opened env.store query source = .ok (stream, ordered) ∧
        Delivers env query plan run.context.vars stream ordered out items
          ((runSerial env query plan source).run.run run).2.rows := by
  obtain ⟨opened, hkeeps, hrun⟩ := runSerial_run env query plan source run
  rw [hrun]
  rcases plan.opened env.store query source with failure | ⟨stream, ordered⟩
  · exact .inl (hkeeps.rows.trans hrows)
  · right
    refine ⟨stream, ordered, ?_⟩
    dsimp only
    rw [run_bind]
    rcases hloop : (serialLoop env (env.setup query ordered)
      (Evaluator.ofPlan env.store run.context.vars query plan) (stream.size + 1)
      ⟨stream, [], .start⟩).run.run opened with ⟨result, after⟩
    -- before the loop the pipeline has taken nothing, and no row is delivered
    have htook : Took env (env.setup query ordered)
        (Evaluator.ofPlan env.store run.context.vars query plan) [] .start opened.rows := by
      rw [hkeeps.rows, hrows]
      exact took_start
    obtain ⟨out, items, pipeline, htakes, hresult⟩ := serialLoop_takes hexpand htook hloop
    have htaken := htakes.took
    rw [List.nil_append] at htaken
    refine ⟨out, items, rfl, htakes.draws, htakes.sublist, ?_⟩
    cases result with
    | error failure => exact htaken.delivered
    | ok done =>
        obtain rfl := hresult done rfl
        obtain ⟨count, last, hfinish, hdelivered, -⟩ := @finish_delivered _
          (env.setup query ordered) _ _ _ _ hunwind htaken
        dsimp only
        rw [hfinish]
        exact hdelivered

/-- A query that asks for all rows of its records, each with one row: no LIMIT (`limitCount?`), no
SKIP, no groups, no EXPAND and no UNWIND. -/
structure SelectQuery.Whole (query : SelectQuery) : Prop where
  /-- There is no LIMIT. -/
  limit : query.limitCount? = none
  /-- There is no SKIP. -/
  skip : query.skipCount = 0
  /-- There are no groups. -/
  grouping : query.isGrouping = false
  /-- There is no EXPAND. -/
  expand : query.expand = none
  /-- There is no UNWIND. -/
  unwind : query.unwind = []

/-- A serial run of a query that is `Whole` delivers the row of every record that its stream gives
and that qualifies, unless a record fails. `Transfer … .empty` says that the stream was emptied, and
`chosen` are the qualifying records in the order in which they are delivered. -/
theorem runSerial_drains (hwhole : query.Whole) (hidle : run.Idle env) (hrows : run.rows = [])
    (hload : ∀ rid r, env.store.load rid = some r → r.rid = rid) {stream : Stream}
    {ordered : Bool} (hopened : plan.opened env.store query source = .ok (stream, ordered))
    (hscanned : ∀ item ∈ stream.contents.scanned, ∃ r, item = .ok r)
    (hqualify : ∀ r, stream.contents.Gives env.store.load r →
      ∃ lets, (Evaluator.ofPlan env.store run.context.vars query plan).qualify r = .ok lets) :
    ∃ count after seen out, ∃ chosen : List WorkItem,
      (runSerial env query plan source).run.run run = (.ok count, after) ∧
      Transfer env.store.load stream.contents [] out .empty seen ∧
      after.rows = chosen.map ((env.setup query ordered).row
        (.ofPlan env.store run.context.vars query plan)) ∧
      chosen.Perm (out.filterMap (Evaluator.ofPlan env.store run.context.vars query plan).item?) := by
  obtain ⟨opened, hkeeps, hrun⟩ := runSerial_run env query plan source run
  rw [hrun, hopened]
  dsimp only
  obtain ⟨hconsistent, hheld, hweight⟩ := Plan.opened_isFresh hopened
  -- the size of the fresh stream is enough rounds for all it holds
  have htook : Took env (env.setup query ordered)
      (Evaluator.ofPlan env.store run.context.vars query plan) [] .start opened.rows := by
    rw [hkeeps.rows, hrows]
    exact took_start
  obtain ⟨out, pipeline, after, seen, hloop, hafter, hdraining⟩ :=
    @serialLoop_drains env (env.setup query ordered)
      (Evaluator.ofPlan env.store run.context.vars query plan) hwhole.expand hwhole.limit hload
      (stream.size + 1) ⟨stream, [], .start⟩ [] opened (hidle.keeps hkeeps)
      ⟨hconsistent, hscanned, hqualify, Nat.lt_succ_of_le hweight⟩ htook
  obtain ⟨count, last, hfinish, -, hdelivered⟩ := @finish_delivered _ (env.setup query ordered)
    _ _ _ _ hwhole.unwind hdraining.took
  obtain ⟨chosen, hchosen, hperm⟩ := hdelivered hafter hwhole.limit hwhole.skip hwhole.grouping
  refine ⟨count, last, seen, out, chosen, ?_, hdraining.transfer, hchosen, hperm⟩
  rw [run_bind, hloop]
  exact hfinish

end

/-- What `deliverCount` comes to. It never calls `check`, so a raised token does not stop it. -/
inductive Counted (env : Env) (query : SelectQuery) (clusters : List ClusterId) (name : String)
    (run : Run) : Except Failure Nat → Run → Prop
  /-- A cluster is missing. -/
  | missing {failure : Failure} {after : Run} (hcount : env.store.count clusters = .error failure)
      (hcalls : after.calls = run.calls) : Counted env query clusters name run (.error failure) after
  /-- The row of the count is handed over. -/
  | handed {count : Nat} {after : Run} (hcount : env.store.count clusters = .ok count)
      (hskip : query.skipCount = 0)
      (hcalls : after.calls = .push (.computed [(name, .ofCount count)]) :: run.calls) :
      Counted env query clusters name run (.ok 1) after
  /-- The row of the count is skipped. -/
  | skipped {count : Nat} {after : Run} (hcount : env.store.count clusters = .ok count)
      (hskip : query.skipCount ≠ 0) (hcalls : after.calls = run.calls) :
      Counted env query clusters name run (.ok 0) after

/-- The inversion of `deliverCount`. -/
theorem deliverCount_counted (env : Env) (query : SelectQuery) (clusters : List ClusterId)
    (name : String) (run : Run) :
    ∃ result after, (deliverCount env query clusters name).run.run run = (result, after) ∧
      Counted env query clusters name run result after := by
  obtain ⟨scanned, hscanned, hrunScanned⟩ := (Exec.gives_enter .scan).step run
  unfold deliverCount
  rw [hrunScanned]
  dsimp only
  cases hcount : env.store.count clusters with
  | error failure => exact ⟨_, scanned, rfl, .missing hcount hscanned.calls⟩
  | ok count =>
      obtain ⟨timed, htimed, hrunTimed⟩ := (Exec.gives_time .scan).step scanned
      obtain ⟨grouped, hgrouped, hrunGrouped⟩ := (Exec.gives_enter .grouped).step timed
      obtain ⟨limited, hlimited, hrunLimited⟩ := (Exec.gives_enter .limited).step grouped
      have hcalls : limited.calls = run.calls :=
        (((hscanned.trans htimed).trans hgrouped).trans hlimited).calls
      dsimp only
      rw [hrunTimed, hrunGrouped, hrunLimited]
      -- there is a single row, so any SKIP leaves nothing to deliver
      by_cases hskip : query.skipCount = 0
      · obtain ⟨pushed, hpush, hpushed, -⟩ :=
          push_run env (.computed [(name, .ofCount count)]) limited
        obtain ⟨last, hlast, hrunLast⟩ := (Exec.gives_enter .delivered).step pushed
        refine ⟨_, last, ?_, .handed hcount hskip (by rw [hlast.calls, hpushed, hcalls])⟩
        rw [if_pos (by simpa using hskip), run_bind, hpush]
        dsimp only
        rw [pure_bind, hrunLast]
        rfl
      · obtain ⟨last, hlast, hrunLast⟩ := (Exec.gives_enter .delivered).step limited
        refine ⟨_, last, ?_, .skipped hcount hskip (hlast.calls.trans hcalls)⟩
        rw [if_neg (by simpa using hskip), pure_bind, hrunLast]
        rfl

/-- `deliverCount` fails where a cluster is missing. Otherwise it delivers the number as the only
row, unless that row is skipped. -/
theorem deliverCount_run (env : Env) (query : SelectQuery) (clusters : List ClusterId)
    (name : String) (run : Run) :
    ∃ after, (deliverCount env query clusters name).run.run run =
        ((env.store.count clusters).map fun _ => if query.skipCount = 0 then 1 else 0, after) ∧
      after.rows = run.rows ++ ((env.store.count clusters).toOption.toList.flatMap fun count =>
        if query.skipCount = 0 then [.computed [(name, .ofCount count)]] else []) := by
  obtain ⟨result, after, hrun, hcounted⟩ := deliverCount_counted env query clusters name run
  refine ⟨after, hrun.trans ?_, ?_⟩
  · cases hcounted with
    | missing hcount _ => rw [hcount]; rfl
    | handed hcount hskip _ => rw [hcount, Except.map, if_pos hskip]
    | skipped hcount hskip _ => rw [hcount, Except.map, if_neg hskip]
  · cases hcounted with
    | missing hcount hcalls =>
        rw [Run.rows, Run.received_of_calls hcalls, hcount]
        simp [Run.rows, Except.toOption]
    | handed hcount hskip hcalls =>
        rw [Run.rows_of_push hcalls, hcount]
        simp [Except.toOption, hskip]
    | skipped hcount hskip hcalls =>
        rw [Run.rows, Run.received_of_calls hcalls, hcount]
        simp [Run.rows, Except.toOption, hskip]

/-! ## The whole query

`runQuery_cases` says all that comes before the run of a plan: the query is validated, the deadline
set, the plan made. Later modules start from it. -/

/-- The plan of a query in a context. It depends on `vars` and `inTransaction`, and on nothing else
of the context. -/
def Env.plan (env : Env) (query : SelectQuery) (context : Context) : Except Failure Plan :=
  env.store.plan env.options query context.vars context.inTransaction

/-- `planQuery` gives `Env.plan`, and only notes the time. -/
theorem planQuery_run (env : Env) (query : SelectQuery) (run : Run) :
    ∃ after, run.Keeps after ∧
      (planQuery env query).run.run run = (env.plan query run.context, after) := by
  unfold planQuery Env.plan
  rw [run_bind, run_get]
  dsimp only
  cases env.store.plan env.options query run.context.vars run.context.inTransaction with
  | error failure => exact ⟨run, .refl run, rfl⟩
  | ok plan =>
      obtain ⟨after, hkeeps, hrun⟩ := (Exec.gives_time .plan).step run
      exact ⟨after, hkeeps, hrun fun _ => pure plan⟩

/-- `defaultTimeout` does not change the variables. -/
theorem vars_defaultTimeout (context : Context) (limitMs : Nat) (strategy : TimeoutStrategy) :
    (context.defaultTimeout limitMs strategy).vars = context.vars := by
  unfold Context.defaultTimeout
  split <;> rfl

/-- `startDeadline` keeps the rows and the variables. Where neither the query nor the settings have
a deadline, a run goes on as before. -/
theorem startDeadline_run (env : Env) (query : SelectQuery) (run : Run) :
    ∃ after, (startDeadline env query).run.run run = (.ok ⟨⟩, after) ∧ after.rows = run.rows ∧
      after.context.vars = run.context.vars ∧
      (query.timeout = none → env.options.defaultTimeoutMs = none → run.Idle env →
        run.Continues env after) := by
  refine ⟨_, run_modify _ run, rfl, ?_, fun hquery hoptions hidle => ?_⟩
  · dsimp only [Context.startClock]
    split <;> split <;> simp [vars_defaultTimeout]
  · rw [hquery, hoptions]
    refine ⟨⟨hidle.sink, ?_, hidle.timedOut, hidle.cancelled⟩, rfl, rfl⟩
    show run.context.deadline.map _ = none
    rw [hidle.deadline]
    rfl

/-- The inversion of `runQuery` up to the run of its plan. Planning fails, and nothing is delivered.
Or the plan is run from `begun`, which has delivered nothing yet, and what is delivered and whether
the query succeeds is decided by `runPlan`. -/
theorem runQuery_cases (env : Env) (query : SelectQuery) (context : Context)
    (signals : Signals) :
    (∃ failure, env.plan query context = .error failure ∧
      (runQuery env query context signals).1 = .error failure ∧
      (runQuery env query context signals).2.rows = []) ∨
    ∃ plan begun, env.plan query context = .ok plan ∧ begun.rows = [] ∧
      begun.context.vars = context.vars ∧
      (query.timeout = none → env.options.defaultTimeoutMs = none →
        (Run.start context signals).Idle env → begun.Idle env) ∧
      (runQuery env query context signals).2.rows =
        ((runPlan env query plan).run.run begun).2.rows ∧
      ((∃ outcome, (runQuery env query context signals).1 = .ok outcome) ↔
        ∃ count, ((runPlan env query plan).run.run begun).1 = .ok count) := by
  obtain ⟨planned, hkeeps, hplanned⟩ := planQuery_run env query (.start context signals)
  unfold runQuery execute
  rw [run_bind, hplanned]
  show (∃ failure, env.plan query context = .error failure ∧ _) ∨ _
  have hcontext : (Run.start context signals).context = context := rfl
  rw [hcontext]
  cases env.plan query context with
  | error failure => exact .inl ⟨failure, rfl, rfl, hkeeps.rows⟩
  | ok plan =>
      right
      -- between planning and running only marks, deadlines and counters are set
      obtain ⟨entered, hentered, hrunEntered⟩ := (Exec.gives_enter .targetResolved).step planned
      obtain ⟨timed, htimed, htimedRows, htimedVars, htimedIdle⟩ :=
        startDeadline_run env query entered
      obtain ⟨begun, hbegun, hrunBegun⟩ := (Exec.gives_count fun stats =>
        { stats with
          foldedPairs := stats.foldedPairs + plan.foldedPairs
          fullySorted := plan.fullySorted
          usedInOrderBy := plan.usedInOrderBy }).step timed
      refine ⟨plan, begun, rfl, ?_, ?_, fun hquery hoptions hidle => ?_, ?_, ?_⟩
      · rw [hbegun.rows, htimedRows, hentered.rows, hkeeps.rows]
        rfl
      · rw [hbegun.vars, htimedVars, hentered.vars, hkeeps.vars]
        rfl
      · exact (htimedIdle hquery hoptions ((hidle.keeps hkeeps).keeps hentered)).idle.keeps hbegun
      · dsimp only
        rw [hrunEntered, run_bind, htimed]
        dsimp only
        rw [hrunBegun, run_bind]
        rcases (runPlan env query plan).run.run begun with ⟨failure | count, after⟩
        · rfl
        · rfl
      · dsimp only
        rw [hrunEntered, run_bind, htimed]
        dsimp only
        rw [hrunBegun, run_bind]
        rcases (runPlan env query plan).run.run begun with ⟨failure | count, after⟩
        · constructor
          · rintro ⟨_, hfailed⟩
            cases hfailed
          · rintro ⟨_, hfailed⟩
            cases hfailed
        · exact ⟨fun _ => ⟨count, rfl⟩, fun _ => ⟨_, rfl⟩⟩

/-- Nothing ends a query early, limits what it delivers, or makes other rows of its records, and no
scan fails. An index may still be `failing`. -/
structure Env.Unhindered (env : Env) (query : SelectQuery) (context : Context)
    (signals : Signals) : Prop where
  /-- The query asks for all rows of its records. -/
  whole : query.Whole
  /-- The query has no deadline. -/
  timeout : query.timeout = none
  /-- The settings have no deadline. -/
  defaultTimeout : env.options.defaultTimeoutMs = none
  /-- The context has no deadline, its token is not raised, and the sink takes every row. -/
  idle : (Run.start context signals).Idle env
  /-- No scan fails. -/
  scans : env.store.failingCluster = none

/-- A serial query that nothing hinders delivers the row of every qualifying record that its stream
gives, unless a record fails. Which records the stream gives is decided by the plan
(`RecordQuery.Proofs.Coverage`). -/
theorem runQuery_drains {env : Env} {query : SelectQuery} {context : Context} {signals : Signals}
    (hunhindered : env.Unhindered query context signals)
    (hload : ∀ rid r, env.store.load rid = some r → r.rid = rid) {plan : Plan}
    (hplan : env.plan query context = .ok plan) (hserial : plan.parallel = false)
    {source : Source} (hsource : plan.source = .rows source) {stream : Stream} {ordered : Bool}
    (hopened : plan.opened env.store query source = .ok (stream, ordered))
    (hscanned : ∀ item ∈ stream.contents.scanned, ∃ r, item = .ok r)
    (hqualify : ∀ r, stream.contents.Gives env.store.load r →
      ∃ lets, (Evaluator.ofPlan env.store context.vars query plan).qualify r = .ok lets) :
    ∃ seen out, ∃ chosen : List WorkItem,
      (∃ outcome, (runQuery env query context signals).1 = .ok outcome) ∧
      Transfer env.store.load stream.contents [] out .empty seen ∧
      (runQuery env query context signals).2.rows = chosen.map ((env.setup query ordered).row
        (.ofPlan env.store context.vars query plan)) ∧
      chosen.Perm (out.filterMap (Evaluator.ofPlan env.store context.vars query plan).item?) := by
  rcases runQuery_cases env query context signals with
    ⟨failure, herror, -, -⟩ | ⟨plan', begun, hplan', hbegun, hvars, hidle, hrows, hok⟩
  · rw [hplan] at herror
    cases herror
  · -- planning is a function of the query, so the plan that was run is the given one
    obtain rfl : plan' = plan := Except.ok.inj (hplan'.symm.trans hplan)
    have hrun : runPlan env query plan' = runSerial env query plan' source := by
      unfold runPlan
      rw [hsource, hserial]
    rw [← hvars] at hqualify ⊢
    obtain ⟨count, after, seen, out, chosen, hserialRun, htransfer, hchosen, hperm⟩ :=
      runSerial_drains hunhindered.whole
        (hidle hunhindered.timeout hunhindered.defaultTimeout hunhindered.idle) hbegun hload hopened
        hscanned hqualify
    rw [hrun, hserialRun] at hrows hok
    exact ⟨seen, out, chosen, hok.mpr ⟨count, rfl⟩, htransfer, hrows.trans hchosen, hperm⟩

end RecordQuery
