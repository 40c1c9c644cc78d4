import RecordQuery.Proofs.Opening
import RecordQuery.Proofs.Sorting
import RecordQuery.Run.Parallel

/-!
# `RecordQuery.Proofs.Delivery`: from accepted records to delivered rows

A pipeline takes the records that qualify and delivers rows. It works in one of three ways. It
gathers records into groups and makes their rows at the end. It streams, and hands over the row of a
record at once. Or it keeps what it needs of a record and makes the rows at the end, sorted where
ORDER BY asks for it. With a LIMIT it cuts back what it keeps (`PipelineSetup.extend`).

`Accepted` lists what `Pipeline.accept` can do with one record, and `accept_run` is the inversion;
no other module opens the function. `Took` is the invariant over the records accepted so far.
`Delivered` is what the sink has received in the end. The two leave out EXPAND and UNWIND, with
which one record has several rows or none. For queries without them every row that reaches the sink
is the row of one accepted record (`PipelineSetup.row`).

A run goes on undisturbed as long as it is `Run.Idle`: the sink takes every row, there is no
deadline, and the token is not raised. `Run.Continues` is the step from one such run to a later one.
`Run.IdleUnder` is for a run beside others, which may raise tokens in between.

The theorems:

* `accept_run`: what a pipeline does with a record, as the cases of `Accepted`.
* `Accepted.took`: what one more accepted record does.
* `finish_run`, `finish_streams`: what the end of a pipeline delivers, whatever it has kept.
* `finish_delivered`: these are rows of accepted records, none of them twice, in the order asked
  for, and all of them where nothing limits the rows.
-/

set_option autoImplicit false

namespace RecordQuery

open Steps

/-! ## Runs that nothing ends early

Completeness is stated for runs that go on undisturbed. `Run.Idle` says it of a run that has its
signals to itself, `Run.IdleUnder` of one whose signals others may set. -/

/-- The sink takes every row, and neither a deadline nor a token ends the run. Most completeness
statements are about such runs, with `.collecting` for the sink. -/
structure Run.Idle (env : Env) (run : Run) : Prop where
  /-- The sink takes every row. -/
  sink : env.sink = .collecting
  /-- There is no deadline. -/
  deadline : run.context.deadline = none
  /-- No deadline has ended the run. -/
  timedOut : run.context.timedOut = false
  /-- The token is not raised. -/
  cancelled : run.context.isCancelled run.signals = false

/-- Counting and noting end no run early: `Keeps` covers all that `Idle` asks about. -/
theorem Run.Idle.keeps {env : Env} {run after : Run} (h : run.Idle env) (hkeeps : run.Keeps after) :
    after.Idle env where
  sink := h.sink
  deadline := hkeeps.deadline.trans h.deadline
  timedOut := hkeeps.timedOut.trans h.timedOut
  cancelled := by
    have hcancelled := h.cancelled
    unfold Context.isCancelled at hcancelled ⊢
    rwa [hkeeps.token, hkeeps.signals]

/-- The run goes on to one that is `Idle`, with the same token and the same tokens raised. -/
structure Run.Continues (env : Env) (run after : Run) : Prop where
  /-- Nothing ends the run early. -/
  idle : after.Idle env
  /-- The same tokens are raised. -/
  signals : after.signals = run.signals
  /-- The token is the same. -/
  token : after.context.token = run.context.token

/-- An idle run goes on (`Continues`) where it only counts and notes. -/
theorem Run.Idle.continues {env : Env} {run after : Run} (h : run.Idle env)
    (hkeeps : run.Keeps after) : run.Continues env after :=
  ⟨h.keeps hkeeps, hkeeps.signals, hkeeps.token⟩

/-- Nothing ends the run early, whichever of the signals in `raised` others set. A run that is
`Idle` is so under its own signals, and without a token it is so under all signals. -/
def Run.IdleUnder (raised : Signals → Prop) (env : Env) (run : Run) : Prop :=
  ∀ signals, raised signals → { run with signals : Run }.Idle env

/-- What goes on stays idle under the same `raised` signals. -/
theorem Run.IdleUnder.continues {raised : Signals → Prop} {env : Env} {run after : Run}
    {signals : Signals} (h : run.IdleUnder raised env)
    (hcontinues : { run with signals : Run }.Continues env after) :
    after.IdleUnder raised env := by
  intro other hother
  refine ⟨hcontinues.idle.sink, hcontinues.idle.deadline, hcontinues.idle.timedOut, ?_⟩
  have hcancelled := (h other hother).cancelled
  unfold Context.isCancelled at hcancelled ⊢
  rwa [show after.context.token = run.context.token from hcontinues.token]

/-- Counting and noting (`Keeps`) leave a run idle under the same signals. -/
theorem Run.IdleUnder.keeps {raised : Signals → Prop} {env : Env} {run after : Run}
    (h : run.IdleUnder raised env) (hkeeps : run.Keeps after) : after.IdleUnder raised env :=
  fun signals hraised => (h signals hraised).keeps
    ⟨hkeeps.calls, rfl, hkeeps.vars, hkeeps.deadline, hkeeps.token, hkeeps.timedOut⟩

/-- A call `.push` of the sink adds its row to those `received`, the newest first. -/
theorem Run.received_of_push {run after : Run} {row : Row}
    (h : after.calls = .push row :: run.calls) : after.received = row :: run.received := by
  unfold Run.received
  rw [h]
  rfl

/-- The row handed over last is the last of `rows`. -/
theorem Run.rows_of_push {run after : Run} {row : Row}
    (h : after.calls = .push row :: run.calls) : after.rows = run.rows ++ [row] := by
  simp [Run.rows, Run.received_of_push h]

/-- A sink that takes every row `wantsMore`, whatever it has received. -/
theorem Run.Idle.wantsMore {env : Env} {run : Run} (h : run.Idle env) (received : List Row) :
    env.sink.wantsMore received = true := by
  rw [h.sink]
  rfl

/-- `Exec.push` hands over a row by one call of the sink, which says whether it wants more. A sink
that takes every row ends no run early. -/
theorem push_run (env : Env) (row : Row) (run : Run) :
    ∃ after,
      (Exec.push env row).run.run run =
        (.ok (env.sink.wantsMore (row :: run.received)), after) ∧
      after.calls = .push row :: run.calls ∧ (run.Idle env → run.Continues env after) := by
  let pushed : Run := { run with calls := .push row :: run.calls }
  -- a sink may cancel the run with the row, but not one that takes every row
  cases hcancels : env.sink.cancels pushed.received with
  | false =>
      refine ⟨pushed, ?_, rfl, fun hidle =>
        ⟨⟨hidle.sink, hidle.deadline, hidle.timedOut, hidle.cancelled⟩, rfl, rfl⟩⟩
      simp only [Exec.push, Exec.update, run_bind, run_modify, run_get]
      rw [if_neg (by rw [hcancels]; simp)]
      rfl
  | true =>
      refine ⟨?_, ?_, ?_, fun hidle => ?_⟩
      rotate_left
      · simp only [Exec.push, Exec.update, run_bind, run_modify, run_get]
        rw [if_pos hcancels]
        rfl
      · rfl
      · rw [hidle.sink] at hcancels
        cases hcancels

/-! ## Accepting records

`Accepted` has one constructor for each thing that a pipeline does with a record, and is proved of
`Pipeline.accept` once. The invariant `Took` and the later one of `Feeding` are both shown by cases
of it. -/

section

variable {env : Env} {setup : PipelineSetup} {evaluator : Evaluator}

/-- The row of an accepted record: what `project` makes of it, with the LET bindings of the record
in scope. -/
def PipelineSetup.row (setup : PipelineSetup) (evaluator : Evaluator) (item : WorkItem) : Row :=
  setup.query.project (evaluator.scope item.lets) item.record

/-- The ORDER BY values of an accepted record, read from its `row` where a column has the name and
from the record otherwise. -/
def PipelineSetup.sortKey (setup : PipelineSetup) (env : Env) (evaluator : Evaluator)
    (item : WorkItem) : List Value :=
  setup.query.sortKey env.store.load item.record (some (setup.row evaluator item))

/-- What is kept of an accepted record: its `row`, and its `sortKey` if there is something to
sort. -/
def PipelineSetup.pending (setup : PipelineSetup) (env : Env) (evaluator : Evaluator)
    (item : WorkItem) : Pending :=
  ⟨if setup.sorts then setup.sortKey env evaluator item else [], .row (setup.row evaluator item)⟩

/-- What a pipeline has done with the records accepted so far. It has gathered them into groups, or
delivered their rows but for those that SKIP leaves out, or kept them. What is kept are some of the
records, none of them twice, and all of them if `keep?` is `none`, so that nothing is cut back. -/
def Took (env : Env) (setup : PipelineSetup) (evaluator : Evaluator) (items : List WorkItem)
    (pipeline : Pipeline) (rows : List Row) : Prop :=
  if setup.query.isGrouping then
    rows = [] ∧ (setup.query.projections ≠ [] →
      ∀ group ∈ pipeline.grouping.groups, group.firstRow = none)
  else if setup.streams then
    pipeline.skipped = min items.length setup.query.skipCount ∧
      rows = (items.drop setup.query.skipCount).map (setup.row evaluator)
  else
    rows = [] ∧ ∃ kept : List WorkItem,
      pipeline.buffer.reverse = kept.map (setup.pending env evaluator) ∧ kept.Subperm items ∧
        (setup.keep? = none → kept = items)

/-- A pipeline starts with no record, and `Took` none. -/
theorem took_start : Took env setup evaluator [] .start [] := by
  unfold Took
  split
  · exact ⟨rfl, fun _ => by simp [Pipeline.start, Grouping.empty]⟩
  · split
    · exact ⟨rfl, by simp⟩
    · exact ⟨rfl, [], rfl, .refl _, fun _ => rfl⟩

/-- `Pipeline.deliver` hands the row over and counts it. More rows are wanted until the sink wants
no more or the limit is reached. The first row beyond a threshold is noted in `hinted`. -/
theorem deliver_calls (env : Env) (setup : PipelineSetup) (pipeline : Pipeline) (row : Row)
    (run : Run) :
    ∃ hinted after,
      (pipeline.deliver env setup row).run.run run =
        (.ok (env.sink.wantsMore (row :: run.received) &&
            setup.query.limitCount?.all (pipeline.delivered + 1 < ·),
          { pipeline with delivered := pipeline.delivered + 1, hinted }), after) ∧
      after.calls = .push row :: run.calls ∧ (run.Idle env → run.Continues env after) := by
  -- the warning about many rows comes at most once, before a row
  cases hhints : setup.query.limitCount?.isNone && !pipeline.hinted &&
      decide (setup.hintThreshold < pipeline.delivered + 1) with
  | false =>
      obtain ⟨after, hpush, hcalls, hidle⟩ := push_run env row run
      refine ⟨pipeline.hinted || false, after, ?_, hcalls, hidle⟩
      simp only [Pipeline.deliver, hhints]
      rw [if_neg (by simp), run_bind, hpush]
      rfl
  | true =>
      obtain ⟨mid, hwarn, hkeeps⟩ :=
        Exec.gives_warn (.manyRows (pipeline.delivered + 1) setup.hintThreshold) run
      obtain ⟨after, hpush, hcalls, hidle⟩ := push_run env row mid
      refine ⟨pipeline.hinted || true, after, ?_, hkeeps.calls ▸ hcalls, fun h => ?_⟩
      · simp only [Pipeline.deliver, hhints]
        rw [if_pos trivial, run_bind, hwarn]
        dsimp only
        rw [run_bind, hpush, hkeeps.received]
        rfl
      · have hafter := hidle (h.keeps hkeeps)
        exact ⟨hafter.idle, hafter.signals.trans hkeeps.signals, hafter.token.trans hkeeps.token⟩

/-- Delivering a row counts it. In an idle run `more` rows are wanted until the limit is reached. -/
theorem deliver_run (env : Env) (setup : PipelineSetup) (pipeline : Pipeline) (row : Row)
    (run : Run) :
    ∃ more hinted after,
      (pipeline.deliver env setup row).run.run run =
        (.ok (more, { pipeline with delivered := pipeline.delivered + 1, hinted }), after) ∧
      after.rows = run.rows ++ [row] ∧
      (run.Idle env → run.Continues env after ∧
        more = setup.query.limitCount?.all (pipeline.delivered + 1 < ·)) := by
  obtain ⟨hinted, after, hrun, hcalls, hidle⟩ := deliver_calls env setup pipeline row run
  refine ⟨_, hinted, after, hrun, Run.rows_of_push hcalls, fun h => ⟨hidle h, ?_⟩⟩
  rw [h.wantsMore, Bool.true_and]

/-- A permutation of a mapped list is a mapped list, of a permutation of the list. -/
theorem exists_of_perm_map {α β : Type} {f : α → β} {xs : List α} {ys : List β}
    (h : ys.Perm (xs.map f)) : ∃ zs : List α, zs.Perm xs ∧ ys = zs.map f := by
  induction ys generalizing xs with
  | nil =>
      obtain rfl : xs = [] := by simpa using h.symm
      exact ⟨[], .nil, rfl⟩
  | cons y ys ih =>
      obtain ⟨x, hx, rfl⟩ := List.mem_map.mp (h.mem_iff.mp (List.mem_cons_self ..))
      obtain ⟨before, behind, rfl⟩ := List.append_of_mem hx
      have hrest : ys.Perm ((before ++ behind).map f) := by
        refine List.Perm.cons_inv (h.trans ?_)
        simp
      obtain ⟨zs, hzs, rfl⟩ := ih hrest
      exact ⟨x :: zs, (hzs.cons x).trans List.perm_middle.symm, rfl⟩

/-- What is kept of an accepted record, whether it is expanded or not. EXPAND makes the rows at the
end, so the value to expand is kept, where `pending` keeps the row. -/
def PipelineSetup.kept (setup : PipelineSetup) (env : Env) (evaluator : Evaluator)
    (item : WorkItem) : Pending :=
  match setup.query.expand with
  | some chain =>
      ⟨if setup.sorts then setup.query.sortKey env.store.load item.record none else [],
        .expand (chain.resolve env.store.load item.record)⟩
  | none => setup.pending env evaluator item

/-- The buffer with one more kept record. When it has grown by `slack` beyond what is to be shown,
it is sorted and cut back. The buffer is in reverse, the newest record first. -/
def PipelineSetup.extend (setup : PipelineSetup) (buffer : List Pending) (pending : Pending) :
    List Pending :=
  match setup.keep? with
  | some count =>
      if count + setup.slack ≤ (pending :: buffer).length then
        ((Pipeline.sortPending setup.query.orderBy (pending :: buffer).reverse).take count).reverse
      else pending :: buffer
  | none => pending :: buffer

/-- `Pipeline.keep` extends the buffer and changes nothing else. -/
theorem keep_gives (pipeline : Pipeline) (item : WorkItem) :
    Exec.Gives (pipeline.keep env setup (evaluator.scope item.lets) item.record)
      (.ok { pipeline with
        buffer := setup.extend pipeline.buffer (setup.kept env evaluator item) }) := by
  unfold Pipeline.keep PipelineSetup.kept PipelineSetup.extend
  dsimp only
  -- the record is kept in one form or the other; what follows is the same
  cases setup.keep? with
  | none => cases setup.query.expand <;> exact Exec.gives_pure _
  | some count =>
      by_cases hfull : count + setup.slack ≤ pipeline.buffer.length + 1
      · simp only [List.length_cons, if_pos hfull]
        cases setup.query.expand <;> exact (Exec.gives_time _).bind (Exec.gives_pure _)
      · simp only [List.length_cons, if_neg hfull]
        cases setup.query.expand <;> exact Exec.gives_pure _

/-- Without EXPAND the buffer holds the `pending` rows of accepted records, and `extend` loses some
of them only where it is cut back. -/
theorem extend_kept (hexpand : setup.query.expand = none) {buffer : List Pending}
    {kept : List WorkItem} (hkept : buffer.reverse = kept.map (setup.pending env evaluator))
    (item : WorkItem) :
    ∃ kept' : List WorkItem,
      (setup.extend buffer (setup.kept env evaluator item)).reverse =
        kept'.map (setup.pending env evaluator) ∧
      kept'.Subperm (kept ++ [item]) ∧ (setup.keep? = none → kept' = kept ++ [item]) := by
  have hpending : setup.kept env evaluator item = setup.pending env evaluator item := by
    unfold PipelineSetup.kept
    rw [hexpand]
  let longer := setup.pending env evaluator item :: buffer
  have hlonger : longer.reverse = (kept ++ [item]).map (setup.pending env evaluator) := by
    simp [longer, hkept]
  unfold PipelineSetup.extend
  rw [hpending]
  cases setup.keep? with
  | none => exact ⟨kept ++ [item], hlonger, .refl _, fun _ => rfl⟩
  | some count =>
      dsimp only
      split
      · -- the buffer is sorted and cut back
        have hperm := stableSort_perm
          (fun a b : Pending => compareKeys setup.query.orderBy a.key b.key) longer.reverse
        rw [hlonger] at hperm
        obtain ⟨sorted, hsorted, hpending⟩ := exists_of_perm_map hperm
        refine ⟨sorted.take count, ?_, ?_, by simp⟩
        · rw [List.reverse_reverse, List.map_take, Pipeline.sortPending, hlonger, hpending]
        · exact (List.take_sublist _ _).subperm.trans hsorted.subperm
      · exact ⟨kept ++ [item], hlonger, .refl _, by simp⟩

/-- A pipeline that `streams` gathers no groups, as it would have to wait for the end of each. -/
theorem isGrouping_of_streams (hstreams : setup.streams = true) :
    setup.query.isGrouping = false := by
  simp only [PipelineSetup.streams, Bool.and_eq_true, Bool.not_eq_true'] at hstreams
  exact hstreams.1.2

/-- What a pipeline does with a record that qualifies: whether it wants more, and the pipeline and
the run afterwards. Only `delivered` calls the sink, and only there the pipeline may want no
more. -/
inductive Accepted (env : Env) (setup : PipelineSetup) (evaluator : Evaluator) (item : WorkItem)
    (pipeline : Pipeline) (run : Run) : Bool → Pipeline → Run → Prop
  /-- The record goes into its group. -/
  | gathered (hgroups : setup.query.isGrouping = true) :
      Accepted env setup evaluator item pipeline run true
        { pipeline with
          grouping := pipeline.grouping.accept setup.query (evaluator.scope item.lets)
            item.record } run
  /-- Rows stream, and SKIP leaves this one out. -/
  | skipped (hstreams : setup.streams = true) (hskip : pipeline.skipped < setup.query.skipCount) :
      Accepted env setup evaluator item pipeline run true
        { pipeline with skipped := pipeline.skipped + 1 } run
  /-- Rows stream, and this one is handed over. -/
  | delivered {hinted : Bool} {after : Run} (hstreams : setup.streams = true)
      (hskip : ¬pipeline.skipped < setup.query.skipCount)
      (hcalls : after.calls = .push (setup.row evaluator item) :: run.calls)
      (hidle : run.Idle env → run.Continues env after) :
      Accepted env setup evaluator item pipeline run
        (env.sink.wantsMore (setup.row evaluator item :: run.received) &&
          setup.query.limitCount?.all (pipeline.delivered + 1 < ·))
        { pipeline with delivered := pipeline.delivered + 1, hinted } after
  /-- The record is kept until the end. -/
  | kept {after : Run} (hgroups : setup.query.isGrouping = false)
      (hstreams : setup.streams = false) (hkeeps : run.Keeps after) :
      Accepted env setup evaluator item pipeline run true
        { pipeline with
          buffer := setup.extend pipeline.buffer (setup.kept env evaluator item) } after

/-- Accepting a record does not fail, and does one of the things in `Accepted`. -/
theorem accept_run (pipeline : Pipeline) (item : WorkItem) (run : Run) :
    ∃ more next after,
      (pipeline.accept env setup (evaluator.scope item.lets) item.record).run.run run =
        (.ok (more, next), after) ∧
      Accepted env setup evaluator item pipeline run more next after := by
  unfold Pipeline.accept
  cases hgroups : setup.query.isGrouping with
  | true => exact ⟨_, _, run, rfl, .gathered hgroups⟩
  | false =>
      rw [if_neg Bool.false_ne_true]
      cases hstreams : setup.streams with
      | true =>
          by_cases hskip : pipeline.skipped < setup.query.skipCount
          · rw [if_pos rfl, if_pos hskip]
            exact ⟨_, _, run, rfl, .skipped hstreams hskip⟩
          · rw [if_pos rfl, if_neg hskip]
            obtain ⟨hinted, after, hrun, hcalls, hidle⟩ :=
              deliver_calls env setup pipeline (setup.row evaluator item) run
            exact ⟨_, _, after, hrun, .delivered hstreams hskip hcalls hidle⟩
      | false =>
          rw [if_neg Bool.false_ne_true]
          obtain ⟨after, hkeeps, hrun⟩ := (keep_gives pipeline item).step run
          exact ⟨_, _, after, hrun _, .kept hgroups hstreams hkeeps⟩

/-- The inversion of `Pipeline.accept`. -/
theorem accepted_of_run (item : WorkItem) {pipeline next : Pipeline} {run after : Run} {more : Bool}
    (hrun : (pipeline.accept env setup (evaluator.scope item.lets) item.record).run.run run =
      (.ok (more, next), after)) :
    Accepted env setup evaluator item pipeline run more next after := by
  obtain ⟨more', next', after', hrun', haccepted⟩ := accept_run pipeline item run
  cases hrun.symm.trans hrun'
  exact haccepted

/-- Where nothing ends a run early, accepting a record does not either, and without LIMIT `more`
records are wanted. -/
theorem Accepted.continues {item : WorkItem} {pipeline next : Pipeline} {run after : Run}
    {more : Bool} (h : Accepted env setup evaluator item pipeline run more next after)
    (hidle : run.Idle env) :
    run.Continues env after ∧ (setup.query.limitCount? = none → more = true) := by
  cases h with
  | gathered | skipped => exact ⟨⟨hidle, rfl, rfl⟩, fun _ => rfl⟩
  | delivered _ _ _ hcontinues =>
      refine ⟨hcontinues hidle, fun hlimit => ?_⟩
      rw [hidle.wantsMore, hlimit]
      rfl
  | kept _ _ hkeeps => exact ⟨hidle.continues hkeeps, fun _ => rfl⟩

/-- Groups of a query with columns have no `firstRow`, and `accept` gives them none. -/
theorem firstRow_accept {query : SelectQuery} (hcolumns : query.projections ≠ [])
    {grouping : Grouping} (hgroups : ∀ group ∈ grouping.groups, group.firstRow = none)
    (scope : Scope) (record : Record) :
    ∀ group ∈ (grouping.accept query scope record).groups, group.firstRow = none := by
  have hfeed (state : GroupState) (hstate : state.firstRow = none) :
      (Grouping.feedState query.projections scope record state).firstRow = none := by
    simp [Grouping.feedState, hcolumns, hstate]
  intro group hgroup
  unfold Grouping.accept at hgroup
  dsimp only at hgroup
  -- the record joins a group or starts one, and is fed to it either way
  split at hgroup
  next slot _ =>
    obtain ⟨i, hi, rfl⟩ := List.getElem_of_mem hgroup
    rw [List.getElem_modify]
    split
    · exact hfeed _ (hgroups _ (List.getElem_mem _))
    · exact hgroups _ (List.getElem_mem _)
  · rcases List.mem_append.mp hgroup with hgroup | hgroup
    · exact hgroups group hgroup
    · obtain rfl := List.mem_singleton.mp hgroup
      exact hfeed _ rfl

/-- One more accepted record keeps `Took` up. The cases are those of `Accepted`. A record that is
delivered comes behind the others, as SKIP is used up by then. -/
theorem Accepted.took (hexpand : setup.query.expand = none) {items : List WorkItem}
    {item : WorkItem} {pipeline next : Pipeline} {run after : Run} {more : Bool}
    (h : Accepted env setup evaluator item pipeline run more next after)
    (htook : Took env setup evaluator items pipeline run.rows) :
    Took env setup evaluator (items ++ [item]) next after.rows := by
  unfold Took at htook ⊢
  cases h with
  | gathered hgroups =>
      rw [if_pos hgroups] at htook ⊢
      exact ⟨htook.1, fun hcolumns =>
        firstRow_accept hcolumns (htook.2 hcolumns) (evaluator.scope item.lets) item.record⟩
  | skipped hstreams hskip =>
      rw [if_neg (by simp [isGrouping_of_streams hstreams]), if_pos hstreams] at htook ⊢
      obtain ⟨hskipped, hrows⟩ := htook
      refine ⟨?_, ?_⟩
      · simp only [List.length_append, List.length_singleton]
        omega
      · rw [hrows, List.drop_eq_nil_of_le (by omega), List.drop_eq_nil_of_le]
        simp only [List.length_append, List.length_singleton]
        omega
  | delivered hstreams hskip hcalls =>
      rw [if_neg (by simp [isGrouping_of_streams hstreams]), if_pos hstreams] at htook ⊢
      obtain ⟨hskipped, hrows⟩ := htook
      refine ⟨?_, ?_⟩
      · simp only [List.length_append, List.length_singleton]
        omega
      · rw [Run.rows_of_push hcalls, hrows, List.drop_append_of_le_length (by omega),
          List.map_append]
        rfl
  | kept hgroups hstreams hkeeps =>
      rw [if_neg (by simp [hgroups]), if_neg (by simp [hstreams])] at htook ⊢
      obtain ⟨hrows, kept, hkept, hsub, hall⟩ := htook
      -- some of the kept records may be cut off
      obtain ⟨kept', hbuffer, hsub', hall'⟩ := extend_kept hexpand hkept item
      refine ⟨hkeeps.rows.trans hrows, kept', hbuffer, ?_, fun hnone => ?_⟩
      · exact hsub'.trans ((List.subperm_append_right [item]).mpr hsub)
      · rw [hall' hnone, hall hnone]

/-! ## The end of a pipeline

At the end a pipeline delivers a page of what it has kept or gathered, sorted where ORDER BY asks
for it. `finish_run` says which rows these are, for groups and for kept records alike. -/

/-- The rows that the sink has received in the end. These are rows of groups, which have no
identity, or rows of accepted records, none of them twice. Without sorting they come in the order of
the records. With it they come in the order asked for, if `compareKeys` is total on the ORDER BY
values. -/
def Delivered (env : Env) (setup : PipelineSetup) (evaluator : Evaluator) (items : List WorkItem)
    (rows : List Row) : Prop :=
  if setup.query.isGrouping then
    setup.query.projections ≠ [] → ∀ row ∈ rows, row.rid = none
  else
    ∃ chosen : List WorkItem, rows = chosen.map (setup.row evaluator) ∧ chosen.Subperm items ∧
      (setup.sorts = false → chosen.Sublist items) ∧
      (setup.sorts = true → ∀ p, TotalOn (compareKeys setup.query.orderBy) p →
        (∀ item ∈ items, p (setup.sortKey env evaluator item)) →
        chosen.Pairwise fun a b => (compareKeys setup.query.orderBy
          (setup.sortKey env evaluator a) (setup.sortKey env evaluator b)).isLE = true)

/-- `deliverAll` hands over some of the first rows, and all of them where the limit allows it and
nothing ends the run early. -/
theorem deliverAll_run (env : Env) (setup : PipelineSetup) (pipeline : Pipeline)
    (rows : List Row) (run : Run) :
    ∃ pipeline' handed after,
      (pipeline.deliverAll env setup rows).run.run run = (.ok pipeline', after) ∧
      after.rows = run.rows ++ handed ∧ handed <+: rows ∧
      (run.Idle env →
        setup.query.limitCount?.all (pipeline.delivered + rows.length ≤ ·) = true →
        handed = rows) := by
  induction rows generalizing pipeline run with
  | nil => exact ⟨pipeline, [], run, rfl, (List.append_nil _).symm, List.prefix_rfl, fun _ _ => rfl⟩
  | cons row rows ih =>
      obtain ⟨more, hinted, mid, hrun, hmid, hidle⟩ := deliver_run env setup pipeline row run
      let counted : Pipeline := { pipeline with delivered := pipeline.delivered + 1, hinted }
      cases more with
      | false =>
          refine ⟨counted, [row], mid, ?_, hmid, ⟨rows, rfl⟩, fun h hfits => ?_⟩
          · simp only [Pipeline.deliverAll]
            rw [run_bind, hrun]
            rfl
          · -- the limit is reached, so no row can be left
            have hreached := (hidle h).2
            cases hlimit : setup.query.limitCount? with
            | none => simp [hlimit] at hreached
            | some limit =>
                simp only [hlimit, Option.all_some, List.length_cons, decide_eq_true_eq] at hfits
                simp only [hlimit, Option.all_some] at hreached
                have hreached := of_decide_eq_false hreached.symm
                obtain rfl : rows = [] := List.length_eq_zero_iff.mp (by omega)
                rfl
      | true =>
          obtain ⟨pipeline', handed, after, hrun', hafter, ⟨others, hhanded⟩, hall⟩ :=
            ih counted mid
          refine ⟨pipeline', row :: handed, after, ?_, ?_, ⟨others, ?_⟩, fun h hfits => ?_⟩
          · simp only [Pipeline.deliverAll]
            rw [run_bind, hrun]
            exact hrun'
          · rw [hafter, hmid, List.append_assoc]
            rfl
          · rw [List.cons_append, hhanded]
          · -- one row less is left, and one more is delivered
            have hcounted : counted.delivered + rows.length =
                pipeline.delivered + (row :: rows).length := by
              show pipeline.delivered + 1 + rows.length = _
              rw [List.length_cons]
              omega
            rw [hall (hidle h).1.idle (by rwa [hcounted])]

/-- `Pipeline.page` is the part of the rows that SKIP and LIMIT leave, and all of them without
either. -/
theorem page_sublist (query : SelectQuery) (rows : List Row) :
    (Pipeline.page query rows).Sublist rows ∧
      (query.limitCount? = none → query.skipCount = 0 → Pipeline.page query rows = rows) := by
  unfold Pipeline.page
  cases hlimit : query.limitCount? with
  | none => exact ⟨List.drop_sublist _ _, fun _ hskip => by rw [hskip]; rfl⟩
  | some limit =>
      exact ⟨(List.take_sublist _ _).trans (List.drop_sublist _ _), by simp⟩

/-- `Pipeline.page` has no more rows than LIMIT says. -/
theorem page_length (query : SelectQuery) (rows : List Row) :
    query.limitCount?.all ((Pipeline.page query rows).length ≤ ·) = true := by
  unfold Pipeline.page
  cases query.limitCount? with
  | none => rfl
  | some limit => exact decide_eq_true (List.length_take_le _ _)

/-- The rows of groups without a `firstRow` (`hgroups`) have no identity. -/
theorem groupRows_rid {pipeline : Pipeline}
    (hgroups : ∀ group ∈ pipeline.grouping.groups, group.firstRow = none) :
    ∀ row ∈ pipeline.grouping.finish setup.query, row.rid = none := by
  intro row hrow
  unfold Grouping.finish at hrow
  dsimp only at hrow
  obtain ⟨group, hgroup, rfl⟩ := List.mem_map.mp hrow
  have hfirst : group.firstRow = none := by
    split at hgroup
    · rw [List.mem_singleton.mp hgroup]
      rfl
    · exact hgroups group hgroup
  unfold Grouping.rowOf
  rw [hfirst]
  rfl

/-- The rows that `finish` makes of groups, in the order asked for. They are sorted by their
columns, as the records are gone. -/
def PipelineSetup.groupedRows (setup : PipelineSetup) (grouping : Grouping) : List Row :=
  let order := setup.query.orderBy
  let rows := grouping.finish setup.query
  if order.isEmpty then rows
  else stableSort (fun a b => compareKeys order (rowSortKey order a) (rowSortKey order b)) rows

/-- `groupRows` gives the `groupedRows`, without a failure. -/
theorem groupRows_gives (pipeline : Pipeline) :
    Exec.Gives (pipeline.groupRows setup) (.ok (setup.groupedRows pipeline.grouping)) := by
  unfold Pipeline.groupRows PipelineSetup.groupedRows
  dsimp only
  split
  · exact (Exec.gives_enter _).bind (Exec.gives_pure _)
  · exact (Exec.gives_enter _).bind ((Exec.gives_time _).bind (Exec.gives_pure _))

/-- `groupedRows` has all rows of the groups: sorting loses none of them. -/
theorem groupedRows_perm (grouping : Grouping) :
    (setup.groupedRows grouping).Perm (grouping.finish setup.query) := by
  unfold PipelineSetup.groupedRows
  dsimp only
  split
  · exact .refl _
  · exact stableSort_perm _ _

/-- The rows of a kept record: its row, or those of the value that EXPAND names. -/
def Pending.rows (load : Rid → Option Record) (pending : Pending) : List Row :=
  match pending.payload with
  | .row row => [row]
  | .expand value => expandValue load value

/-- Kept records in the order in which their rows come: sorted if `setup.sorts`. -/
def PipelineSetup.ordered (setup : PipelineSetup) (kept : List Pending) : List Pending :=
  if setup.sorts then Pipeline.sortPending setup.query.orderBy kept else kept

/-- `keptRows` gives the rows of the `ordered` buffer, without a failure. -/
theorem keptRows_gives (pipeline : Pipeline) :
    Exec.Gives (pipeline.keptRows env setup)
      (.ok ((setup.ordered pipeline.buffer.reverse).flatMap (Pending.rows env.store.load))) := by
  unfold Pipeline.keptRows PipelineSetup.ordered
  cases setup.sorts with
  | false => exact Exec.gives_pure _
  | true => exact (Exec.gives_time _).bind (Exec.gives_pure _)

/-- The rows of kept records are those of the records. They are in the order of the buffer, or
sorted where `setup.sorts` says so. -/
theorem ordered_rows {buffer : List Pending} {kept : List WorkItem}
    (hkept : buffer = kept.map (setup.pending env evaluator)) :
    ∃ chosen : List WorkItem,
      (setup.ordered buffer).flatMap (Pending.rows env.store.load) =
        chosen.map (setup.row evaluator) ∧
      chosen.Perm kept ∧ (setup.sorts = false → chosen = kept) ∧
      (setup.sorts = true → ∀ p, TotalOn (compareKeys setup.query.orderBy) p →
        (∀ item ∈ kept, p (setup.sortKey env evaluator item)) →
        chosen.Pairwise fun a b => (compareKeys setup.query.orderBy
          (setup.sortKey env evaluator a) (setup.sortKey env evaluator b)).isLE = true) := by
  -- one row comes of each kept record, since none is expanded
  have hrows (items : List WorkItem) :
      (items.map (setup.pending env evaluator)).flatMap (Pending.rows env.store.load) =
        items.map (setup.row evaluator) := by
    rw [List.flatMap_map, List.map_eq_flatMap]
    rfl
  unfold PipelineSetup.ordered
  cases hsorts : setup.sorts with
  | false =>
      refine ⟨kept, ?_, .refl _, fun _ => rfl, by simp⟩
      rw [if_neg (by simp), hkept, hrows]
  | true =>
      let cmp (a b : Pending) : Ordering := compareKeys setup.query.orderBy a.key b.key
      obtain ⟨chosen, hchosen, hsorted⟩ : ∃ chosen : List WorkItem, chosen.Perm kept ∧
          stableSort cmp buffer = chosen.map (setup.pending env evaluator) := by
        refine exists_of_perm_map ?_
        rw [← hkept]
        exact stableSort_perm _ _
      refine ⟨chosen, ?_, hchosen, by simp, fun _ p htotal hkeys => ?_⟩
      · rw [if_pos rfl, ← hrows, ← hsorted]
        rfl
      · -- every kept record has its ORDER BY values as its key
        have hkey (item : WorkItem) :
            (setup.pending env evaluator item).key = setup.sortKey env evaluator item := by
          simp [PipelineSetup.pending, hsorts]
        have hp : ∀ pending ∈ buffer, p pending.key := by
          intro pending hpending
          rw [hkept] at hpending
          obtain ⟨item, hitem, rfl⟩ := List.mem_map.mp hpending
          rw [hkey]
          exact hkeys item hitem
        have hascending := stableSortBy_ascending (htotal.comap Pending.key) 4 hp
        have hpairwise : (chosen.map (setup.pending env evaluator)).Pairwise
            fun a b => (cmp a b).isLE = true := by
          rw [← hsorted]
          exact hascending
        rw [List.pairwise_map] at hpairwise
        refine hpairwise.imp fun {a b} hle => ?_
        rwa [← hkey a, ← hkey b]

/-- The rows at the end of a pipeline that has kept or gathered records, with UNWIND applied
(`unwindRows`), before SKIP and LIMIT. -/
def PipelineSetup.rowsAtEnd (setup : PipelineSetup) (env : Env) (pipeline : Pipeline) :
    List Row :=
  unwindRows setup.query.unwind
    (if setup.query.isGrouping then setup.groupedRows pipeline.grouping
      else (setup.ordered pipeline.buffer.reverse).flatMap (Pending.rows env.store.load))

/-- A pipeline that has kept or gathered records delivers the page of `rowsAtEnd`. Entering phases
and gathering the rows delivers nothing (`begun`), and nothing comes after the rows but a phase. -/
theorem finish_run (pipeline : Pipeline) (run : Run) (hstreams : setup.streams = false) :
    ∃ begun, run.Keeps begun ∧ ∀ (done : Pipeline) (delivered : Run),
      (pipeline.deliverAll env setup
        (Pipeline.page setup.query (setup.rowsAtEnd env pipeline))).run.run begun =
          (.ok done, delivered) →
      ∃ after, (pipeline.finish env setup).run.run run = (.ok done.delivered, after) ∧
        delivered.Keeps after := by
  have hgathers : Exec.Gives (if setup.query.isGrouping then pipeline.groupRows setup
      else pipeline.keptRows env setup) (.ok (if setup.query.isGrouping then
        setup.groupedRows pipeline.grouping
      else (setup.ordered pipeline.buffer.reverse).flatMap (Pending.rows env.store.load))) := by
    split
    · exact groupRows_gives pipeline
    · exact keptRows_gives pipeline
  obtain ⟨filtered, hfiltered, hrunFiltered⟩ := (Exec.gives_enter .filtered).step run
  obtain ⟨gathered, hgathered, hrunGathered⟩ := hgathers.step filtered
  -- the phases that follow are the same for groups and for kept rows
  have hrunEither (next : List Row → Exec Nat) :
      (if setup.query.isGrouping then pipeline.groupRows setup >>= next
        else pipeline.keptRows env setup >>= next).run.run filtered =
      (next (if setup.query.isGrouping then setup.groupedRows pipeline.grouping
        else (setup.ordered pipeline.buffer.reverse).flatMap
          (Pending.rows env.store.load))).run.run gathered := by
    rw [← hrunGathered next]
    split <;> rfl
  obtain ⟨sorted, hsorted, hrunSorted⟩ := (Exec.gives_enter .sorted).step gathered
  obtain ⟨limited, hlimited, hrunLimited⟩ := (Exec.gives_enter .limited).step sorted
  refine ⟨limited, ((hfiltered.trans hgathered).trans hsorted).trans hlimited,
    fun done delivered hdelivers => ?_⟩
  obtain ⟨last, hlast, hrunLast⟩ := (Exec.gives_enter .delivered).step delivered
  refine ⟨last, ?_, hlast⟩
  unfold Pipeline.finish
  rw [hrunFiltered, if_neg (by simp [hstreams])]
  dsimp only
  rw [hrunEither, hrunSorted, hrunLimited]
  show ((pipeline.deliverAll env setup
    (Pipeline.page setup.query (setup.rowsAtEnd env pipeline))) >>= _).run.run limited = _
  rw [run_bind, hdelivers]
  dsimp only
  rw [hrunLast]
  rfl

/-- A pipeline that has kept or gathered records hands over a first part of the page of `rowsAtEnd`.
It is the whole page where nothing ends the run early and no row was delivered before. -/
theorem finish_rows (pipeline : Pipeline) (run : Run) (hstreams : setup.streams = false) :
    ∃ count handed after, (pipeline.finish env setup).run.run run = (.ok count, after) ∧
      after.rows = run.rows ++ handed ∧
      handed <+: Pipeline.page setup.query (setup.rowsAtEnd env pipeline) ∧
      (run.Idle env → setup.query.limitCount? = none ∨ pipeline.delivered = 0 →
        handed = Pipeline.page setup.query (setup.rowsAtEnd env pipeline)) := by
  obtain ⟨begun, hkeeps, hfinish⟩ := @finish_run env setup pipeline run hstreams
  obtain ⟨done, handed, delivered, hrun, hdelivered, hpart, hall⟩ := deliverAll_run env setup
    pipeline (Pipeline.page setup.query (setup.rowsAtEnd env pipeline)) begun
  obtain ⟨after, hafter, hlast⟩ := hfinish done delivered hrun
  refine ⟨done.delivered, handed, after, hafter, ?_, hpart, fun hidle hfresh => ?_⟩
  · rw [hlast.rows, hdelivered, hkeeps.rows]
  · refine hall (hidle.keeps hkeeps) ?_
    -- the page is no longer than the limit, so it fits where nothing was delivered before
    rcases hfresh with hlimit | hnone
    · rw [hlimit]
      rfl
    · rw [hnone, Nat.zero_add]
      exact page_length setup.query _

/-- A pipeline that `streams` has nothing left to deliver at its `finish`. -/
theorem finish_streams (pipeline : Pipeline) (run : Run) (hstreams : setup.streams = true) :
    ∃ after, (pipeline.finish env setup).run.run run = (.ok pipeline.delivered, after) ∧
      run.Keeps after := by
  obtain ⟨filtered, hfiltered, hrunFiltered⟩ := (Exec.gives_enter .filtered).step run
  obtain ⟨limited, hlimited, hrunLimited⟩ := (Exec.gives_enter .limited).step filtered
  obtain ⟨last, hlast, hrunLast⟩ := (Exec.gives_enter .delivered).step limited
  refine ⟨last, ?_, (hfiltered.trans hlimited).trans hlast⟩
  unfold Pipeline.finish
  rw [hrunFiltered, if_pos hstreams, hrunLimited, hrunLast]
  rfl

/-- Without sorting nothing is cut back: `keep?` is `none`. -/
theorem keep?_of_not_sorts (hsorts : setup.sorts = false) : setup.keep? = none := by
  unfold PipelineSetup.keep?
  split <;> simp [hsorts]

/-- Without LIMIT nothing is cut back: `keep?` is `none`. -/
theorem keep?_of_limit (hlimit : setup.query.limitCount? = none) : setup.keep? = none := by
  unfold PipelineSetup.keep?
  rw [hlimit]

/-- The end of a pipeline turns `Took` into `Delivered`. Where nothing ends the run early and
nothing limits the rows, the rows are those of all accepted records, in some order. -/
theorem finish_delivered {items : List WorkItem} {pipeline : Pipeline} {run : Run}
    (hunwind : setup.query.unwind = []) (htook : Took env setup evaluator items pipeline run.rows) :
    ∃ count after, (pipeline.finish env setup).run.run run = (.ok count, after) ∧
      Delivered env setup evaluator items after.rows ∧
      (run.Idle env → setup.query.limitCount? = none → setup.query.skipCount = 0 →
        setup.query.isGrouping = false →
        ∃ chosen : List WorkItem, after.rows = chosen.map (setup.row evaluator) ∧
          chosen.Perm items) := by
  unfold Took at htook
  unfold Delivered
  split at htook
  next hgrouping =>
    obtain ⟨count, handed, after, hrun, hafter, hpart, -⟩ :=
      @finish_rows env setup pipeline run (by simp [PipelineSetup.streams, hgrouping])
    refine ⟨count, after, hrun, ?_, fun _ _ _ hnot => by simp [hnot] at hgrouping⟩
    rw [if_pos hgrouping]
    intro hcolumns row hrow
    rw [hafter, htook.1, List.nil_append] at hrow
    have hrow := (page_sublist setup.query _).1.subset (hpart.subset hrow)
    unfold PipelineSetup.rowsAtEnd at hrow
    rw [hunwind, if_pos hgrouping] at hrow
    exact groupRows_rid (htook.2 hcolumns) row ((groupedRows_perm _).mem_iff.mp hrow)
  next hgrouping =>
    simp only [if_neg hgrouping]
    split at htook
    next hstreams =>
      -- what streams has been delivered already, and all of it in the order of the records
      obtain ⟨-, hrows⟩ := htook
      obtain ⟨last, hrun, hlast⟩ := @finish_streams env setup pipeline run hstreams
      have hafter := hlast.rows.trans hrows
      have hsub := List.drop_sublist setup.query.skipCount items
      refine ⟨pipeline.delivered, last, hrun, ⟨_, hafter, hsub.subperm, fun _ => hsub,
        fun hsorts => ?_⟩, fun _ _ hskip _ => ⟨_, hafter, ?_⟩⟩
      · simp [PipelineSetup.streams, hsorts] at hstreams
      · rw [hskip]
        exact .refl _
    next hstreams =>
      obtain ⟨hrows, kept, hkept, hsub, hall⟩ := htook
      -- what is kept is ordered, and a first part of its page is delivered
      obtain ⟨chosen, hchosen, hperm, hunsorted, hsorted⟩ := ordered_rows hkept
      have hatEnd : setup.rowsAtEnd env pipeline = chosen.map (setup.row evaluator) := by
        unfold PipelineSetup.rowsAtEnd
        rw [hunwind, if_neg hgrouping]
        exact hchosen
      obtain ⟨count, handed, after, hrun, hafter, hpart, hwhole⟩ :=
        @finish_rows env setup pipeline run (by simpa using hstreams)
      rw [hrows, List.nil_append] at hafter
      rw [hatEnd] at hpart hwhole
      have hhanded := hpart.sublist.trans (page_sublist setup.query _).1
      obtain ⟨picked, hpicked, rfl⟩ := List.sublist_map_iff.mp hhanded
      refine ⟨count, after, hrun, ⟨picked, hafter, ?_, ?_, ?_⟩, ?_⟩
      · exact hpicked.subperm.trans (hperm.subperm.trans hsub)
      · intro hsorts
        rw [hunsorted hsorts, hall (keep?_of_not_sorts hsorts)] at hpicked
        exact hpicked
      · intro hsorts p htotal hkeys
        exact (hsorted hsorts p htotal fun item hitem =>
          hkeys item (hsub.subset hitem)).sublist hpicked
      · intro hidle hlimit hskip _
        refine ⟨chosen, ?_, ?_⟩
        · rw [hafter, hwhole hidle (.inl hlimit), (page_sublist setup.query _).2 hlimit hskip]
        · rw [← hall (keep?_of_limit hlimit)]
          exact hperm

end

end RecordQuery
