import RecordQuery.Proofs.Delivery
import RecordQuery.Run.Serial

/-!
# `RecordQuery.Proofs.SerialRounds`: the rounds of a serial loop

`serialLoop` is made of rounds, and each round takes at most one record off the stream: it checks
the token and the deadline, pulls, evaluates the condition, and hands the record to the pipeline.
`serialRound` is one round, and `serialLoop_succ` says that the loop is nothing else.

`RoundTurn` lists what a round can come to, with the runs of the steps that it takes. It is the
inversion of `serialRound`, and it says all that a round does. What is said of a loop elsewhere, of
the calls of the sink, the counters, the records taken or the phases, is proved by one case for each
constructor and an induction over the rounds. No other module opens the loop.

The theorems:

* `serialLoop_succ`: a loop takes a round, and goes on while another one follows.
* `serialRound_turn`: a round comes to one of the ends in `RoundTurn`.
-/

set_option autoImplicit false

namespace RecordQuery

open Steps

/-- A round of `serialLoop`: whether another one follows, and from where. It ends the loop where the
deadline ends it early, where the stream is empty, or where the pipeline wants no more records. -/
def serialRound (env : Env) (setup : PipelineSetup) (evaluator : Evaluator)
    (state : SerialState) : Exec (Bool × SerialState) := do
  if ← Exec.check env then
    let (next, state) ← pullRecord env setup.query.orderBy state
    match next with
    | none => return (false, state)
    | some record =>
        match ← evaluateRecord evaluator record with
        | none => return (true, state)
        | some lets =>
            let (more, pipeline) ←
              state.pipeline.accept env setup (evaluator.scope lets) record
            return (more, { state with pipeline })
  else return (false, state)

section

variable {env : Env} {setup : PipelineSetup} {evaluator : Evaluator} {state : SerialState}

/-- `serialLoop` takes a `serialRound`, and goes on while another one follows. Without rounds left
it would end, but a run has more rounds than its stream has records. -/
theorem serialLoop_succ (env : Env) (setup : PipelineSetup) (evaluator : Evaluator) (rounds : Nat)
    (state : SerialState) :
    serialLoop env setup evaluator (rounds + 1) state = (do
      let round ← serialRound env setup evaluator state
      if round.1 then serialLoop env setup evaluator rounds round.2
      else return round.2.pipeline) := by
  conv_lhs => unfold serialLoop
  unfold serialRound
  rw [bind_assoc]
  refine bind_congr fun goOn => ?_
  cases goOn with
  | false => rfl
  | true =>
      simp only [if_true, bind_assoc]
      refine bind_congr fun pulled => ?_
      obtain ⟨next, pulled⟩ := pulled
      cases next with
      | none => rfl
      | some record =>
          simp only [bind_assoc]
          refine bind_congr fun lets => ?_
          cases lets with
          | none => rfl
          | some lets => simp only [bind_assoc, pure_bind]

/-- `pullRecord` is a pull of the stream, with the times taken noted in the run. It changes nothing
else of the run (`Run.Keeps`). -/
theorem pullRecord_run (env : Env) (order : List OrderItem) (state : SerialState) (run : Run) :
    ∃ after : Run, run.Keeps after ∧ (pullRecord env order state).run.run run =
      match (state.stream.pull order env.store.load).run.run ⟨state.seen, []⟩ with
      | (.ok (record, stream), pulled) =>
          (.ok (record, { state with stream, seen := pulled.seen }), after)
      | (.error failure, _) => (.error failure, after) := by
  unfold pullRecord
  rcases (state.stream.pull order env.store.load).run.run ⟨state.seen, []⟩ with
    ⟨failure | ⟨record, stream⟩, pulled⟩
  · exact ⟨_, .events run _, rfl⟩
  · exact ⟨_, .events run _, rfl⟩

/-- The inversion of `pullRecord`: what was drawn came off the stream. -/
theorem pullRecord_ok {order : List OrderItem} {run after : Run} {record : Option Record}
    {next : SerialState}
    (hpull : (pullRecord env order state).run.run run = (.ok (record, next), after)) :
    ∃ stream pulled,
      (state.stream.pull order env.store.load).run.run ⟨state.seen, []⟩ =
        (.ok (record, stream), pulled) ∧
      next = { state with stream, seen := pulled.seen } ∧ run.Keeps after := by
  obtain ⟨drawn, hkeeps, hrun⟩ := pullRecord_run env order state run
  rw [hpull] at hrun
  split at hrun
  next hstream =>
    cases hrun
    exact ⟨_, _, hstream, rfl, hkeeps⟩
  · cases hrun

/-- Where `pullRecord` fails, the stream has failed. -/
theorem pullRecord_error {order : List OrderItem} {run after : Run} {failure : Failure}
    (hpull : (pullRecord env order state).run.run run = (.error failure, after)) :
    ∃ pulled,
      (state.stream.pull order env.store.load).run.run ⟨state.seen, []⟩ =
        (.error failure, pulled) ∧
      run.Keeps after := by
  obtain ⟨drawn, hkeeps, hrun⟩ := pullRecord_run env order state run
  rw [hpull] at hrun
  split at hrun
  · cases hrun
  next hstream =>
    cases hrun
    exact ⟨_, hstream, hkeeps⟩

/-- What `serialRound` can come to, with the runs of the steps that it takes. The first two are ends
by the check, the next two by the stream, and the others are what becomes of a record. -/
inductive RoundTurn (env : Env) (setup : PipelineSetup) (evaluator : Evaluator)
    (state : SerialState) (run : Run) : Except Failure (Bool × SerialState) → Run → Prop
  /-- A token or a deadline fails the run. -/
  | cancelled {failure : Failure} {after : Run}
      (hcheck : (Exec.check env).run.run run = (.error failure, after)) :
      RoundTurn env setup evaluator state run (.error failure) after
  /-- A deadline ends the run. -/
  | halted {after : Run} (hcheck : (Exec.check env).run.run run = (.ok false, after)) :
      RoundTurn env setup evaluator state run (.ok (false, state)) after
  /-- The stream fails. -/
  | broken {checked after : Run} {failure : Failure}
      (hcheck : (Exec.check env).run.run run = (.ok true, checked))
      (hpull : (pullRecord env setup.query.orderBy state).run.run checked =
        (.error failure, after)) :
      RoundTurn env setup evaluator state run (.error failure) after
  /-- The stream ends. -/
  | ended {checked after : Run} {next : SerialState}
      (hcheck : (Exec.check env).run.run run = (.ok true, checked))
      (hpull : (pullRecord env setup.query.orderBy state).run.run checked =
        (.ok (none, next), after)) :
      RoundTurn env setup evaluator state run (.ok (false, next)) after
  /-- The record cannot be evaluated. -/
  | failed {checked drawn after : Run} {record : Record} {next : SerialState} {failure : Failure}
      (hcheck : (Exec.check env).run.run run = (.ok true, checked))
      (hpull : (pullRecord env setup.query.orderBy state).run.run checked =
        (.ok (some record, next), drawn))
      (hevaluate : (evaluateRecord evaluator record).run.run drawn = (.error failure, after)) :
      RoundTurn env setup evaluator state run (.error failure) after
  /-- The record does not qualify. -/
  | skipped {checked drawn after : Run} {record : Record} {next : SerialState}
      (hcheck : (Exec.check env).run.run run = (.ok true, checked))
      (hpull : (pullRecord env setup.query.orderBy state).run.run checked =
        (.ok (some record, next), drawn))
      (hevaluate : (evaluateRecord evaluator record).run.run drawn = (.ok none, after)) :
      RoundTurn env setup evaluator state run (.ok (true, next)) after
  /-- The record goes into the pipeline, which wants more or not. -/
  | accepted {checked drawn mid after : Run} {record : Record} {next : SerialState}
      {lets : Fields} {more : Bool} {pipeline : Pipeline}
      (hcheck : (Exec.check env).run.run run = (.ok true, checked))
      (hpull : (pullRecord env setup.query.orderBy state).run.run checked =
        (.ok (some record, next), drawn))
      (hevaluate : (evaluateRecord evaluator record).run.run drawn = (.ok (some lets), mid))
      (haccept : (next.pipeline.accept env setup (evaluator.scope lets) record).run.run mid =
        (.ok (more, pipeline), after)) :
      RoundTurn env setup evaluator state run (.ok (more, { next with pipeline })) after

/-- A round comes to one of the ends in `RoundTurn`. The cases are the results of its four steps,
one after the other. -/
theorem serialRound_turn {run after : Run} {result : Except Failure (Bool × SerialState)}
    (hround : (serialRound env setup evaluator state).run.run run = (result, after)) :
    RoundTurn env setup evaluator state run result after := by
  -- each step of the round may be the last one
  unfold serialRound at hround
  rw [run_bind] at hround
  rcases hcheck : (Exec.check env).run.run run with ⟨failure | goOn, checked⟩
  · rw [hcheck] at hround
    cases hround
    exact .cancelled hcheck
  rw [hcheck] at hround
  cases goOn with
  | false =>
      cases hround
      exact .halted hcheck
  | true =>
      simp only [if_true] at hround
      rw [run_bind] at hround
      rcases hpull : (pullRecord env setup.query.orderBy state).run.run checked with
        ⟨failure | ⟨record, next⟩, drawn⟩
      · rw [hpull] at hround
        cases hround
        exact .broken hcheck hpull
      rw [hpull] at hround
      cases record with
      | none =>
          cases hround
          exact .ended hcheck hpull
      | some record =>
          dsimp only at hround
          rw [run_bind] at hround
          rcases hevaluate : (evaluateRecord evaluator record).run.run drawn with
            ⟨failure | lets, mid⟩
          · rw [hevaluate] at hround
            cases hround
            exact .failed hcheck hpull hevaluate
          rw [hevaluate] at hround
          cases lets with
          | none =>
              cases hround
              exact .skipped hcheck hpull hevaluate
          | some lets =>
              dsimp only at hround
              obtain ⟨more, pipeline, taken, haccept, -⟩ :=
                @accept_run env setup evaluator next.pipeline ⟨record, lets⟩ mid
              rw [run_bind, haccept] at hround
              cases hround
              exact .accepted hcheck hpull hevaluate haccept

end

end RecordQuery
