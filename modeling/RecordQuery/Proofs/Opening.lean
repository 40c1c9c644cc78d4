import RecordQuery.Proofs.Streams
import RecordQuery.Run.Serial

/-!
# `RecordQuery.Proofs.Opening`: what opening a source gives

`openSource` is part of a run: it enters phases, notes times and warnings, counts probes of indexes,
and gives a stream. What it gives depends on none of that. It is a function of the store and the
source, `Source.opened`, and `Plan.opened` adds the fallback scan that a plan may have for an index
that cannot be read. So what is proved of runs elsewhere speaks of `Plan.opened` and never of the
steps of opening.

`Exec.Gives step result` says that a step gives the result in every run, and changes only what is
counted and noted. What stays the same is listed in `Run.Keeps`: the calls of the sink, the raised
tokens, the variables, the deadline and the token. The current phase is not in the list, because
opening enters one. `RecordQuery.Proofs.Phases` is about phases.

The theorems:

* `openSource_gives`: opening a source gives what `Source.opened` says.
* `openPlan_gives`: the same with the fallback of a plan.
* `Plan.opened_isFresh`: an opened stream holds no record yet, is consistent, and gives no more
  records than its size says. A run makes as many rounds.
-/

set_option autoImplicit false

namespace RecordQuery

/-! ## Steps that only count and note -/

/-- What the sink has `received` is read off the `calls`, so runs with the same calls have received
the same. -/
theorem Run.received_of_calls {run after : Run} (h : after.calls = run.calls) :
    after.received = run.received := by
  unfold Run.received
  rw [h]

/-- The later run differs from the earlier one only in what is counted and noted, `stats` and
`events`, and in the phase. -/
structure Run.Keeps (run after : Run) : Prop where
  /-- The calls of the sink are the same. -/
  calls : after.calls = run.calls
  /-- The raised tokens are the same. -/
  signals : after.signals = run.signals
  /-- The variables are the same. -/
  vars : after.context.vars = run.context.vars
  /-- The deadline is the same. -/
  deadline : after.context.deadline = run.context.deadline
  /-- The token is the same. -/
  token : after.context.token = run.context.token
  /-- The deadline has ended the query early in both runs or in none. -/
  timedOut : after.context.timedOut = run.context.timedOut

namespace Run.Keeps

variable {run mid after : Run}

/-- A run `Keeps` itself. -/
theorem refl (run : Run) : run.Keeps run := ⟨rfl, rfl, rfl, rfl, rfl, rfl⟩

/-- `Keeps` is transitive, as each field is an equation. -/
theorem trans (h : run.Keeps mid) (h' : mid.Keeps after) : run.Keeps after where
  calls := h'.calls.trans h.calls
  signals := h'.signals.trans h.signals
  vars := h'.vars.trans h.vars
  deadline := h'.deadline.trans h.deadline
  token := h'.token.trans h.token
  timedOut := h'.timedOut.trans h.timedOut

/-- Noting events keeps the run. -/
theorem events (run : Run) (events : List Event) : run.Keeps { run with events } :=
  ⟨rfl, rfl, rfl, rfl, rfl, rfl⟩

/-- Counting keeps the run, whatever `change` does to the counters. -/
theorem modifyStats (run : Run) (change : Stats → Stats) : run.Keeps (run.modifyStats change) :=
  ⟨rfl, rfl, rfl, rfl, rfl, rfl⟩

/-- What the sink has `received` is the same. -/
theorem received (h : run.Keeps after) : after.received = run.received :=
  Run.received_of_calls h.calls

/-- The `rows` that the sink has received are the same. -/
theorem rows (h : run.Keeps after) : after.rows = run.rows := by
  unfold Run.rows
  rw [h.received]

end Run.Keeps

namespace Exec

open Steps

variable {α β : Type}

/-- The step gives the result in every run, and changes only what is counted and noted
(`Run.Keeps`). -/
def Gives (step : Exec α) (result : Except Failure α) : Prop :=
  ∀ run, ∃ after, step.run.run run = (result, after) ∧ run.Keeps after

/-- `pure` gives its result and keeps the run. -/
theorem gives_pure (a : α) : Gives (pure a) (.ok a) := fun run => ⟨run, rfl, .refl run⟩

/-- `throw` gives its failure and keeps the run. -/
theorem gives_throw (failure : Failure) : Gives (throw failure : Exec α) (.error failure) :=
  fun run => ⟨run, rfl, .refl run⟩

/-- One step after the other: the result is that of the second step, `next`. -/
theorem Gives.bind {step : Exec α} {next : α → Exec β} {a : α} {result : Except Failure β}
    (h : Gives step (.ok a)) (hnext : Gives (next a) result) : Gives (step >>= next) result := by
  intro run
  obtain ⟨mid, hrun, hkeeps⟩ := h run
  obtain ⟨after, hrun', hkeeps'⟩ := hnext mid
  exact ⟨after, by rw [run_bind, hrun]; exact hrun', hkeeps.trans hkeeps'⟩

/-- A step that fails is the last one: `next` is not taken. -/
theorem Gives.bind_error {step : Exec α} {next : α → Exec β} {failure : Failure}
    (h : Gives step (.error failure)) : Gives (step >>= next) (.error failure) := by
  intro run
  obtain ⟨mid, hrun, hkeeps⟩ := h run
  exact ⟨mid, by rw [run_bind, hrun], hkeeps⟩

/-- What follows a step starts from the run after it, which `Keeps` the run before. -/
theorem Gives.step {step : Exec α} {a : α} (h : Gives step (.ok a)) (run : Run) :
    ∃ mid, run.Keeps mid ∧ ∀ next : α → Exec β,
      (step >>= next).run.run run = (next a).run.run mid := by
  obtain ⟨mid, hrun, hkeeps⟩ := h run
  exact ⟨mid, hkeeps, fun next => by rw [run_bind, hrun]⟩

/-- Entering a phase keeps all that `Run.Keeps` asks about. -/
theorem gives_enter (phase : Phase) : Gives (enter phase) (.ok ⟨⟩) := by
  intro run
  refine ⟨_, run_modify _ run, ?_⟩
  split
  · exact .refl run
  · exact ⟨rfl, rfl, rfl, rfl, rfl, rfl⟩

/-- Noting a time, an event that is no phase. -/
theorem gives_time (timer : Timer) : Gives (time timer) (.ok ⟨⟩) :=
  fun run => ⟨_, run_modify _ run, .events run _⟩

/-- Giving a warning, an event that is no phase either. -/
theorem gives_warn (warning : Warning) : Gives (warn warning) (.ok ⟨⟩) :=
  fun run => ⟨_, run_modify _ run, .events run _⟩

/-- Counting, whatever `change` does to the counters. -/
theorem gives_count (change : Stats → Stats) : Gives (count change) (.ok ⟨⟩) :=
  fun run => ⟨_, run_modify _ run, .modifyStats run change⟩

/-- Noting that an `index` was read, by an event and in the counters. -/
theorem gives_noteProbe (index : Index) : Gives (noteProbe index) (.ok ⟨⟩) :=
  (gives_time .indexProbe).bind (gives_count _)

end Exec

/-! ## What an opened source gives

`Source.opened` is what opening comes to, without counters and events. It is defined by cases of the
source, as `openSource` is, and the lemmas `_gives` tie each function to it. -/

/-- The entries of the first candidate whose index can be read, and whether they come in the order
asked for. `last` is the failure of the candidate before; without any candidate it is the result. -/
def Branch.read (last : Failure) : Branch → Except Failure (List IndexEntry × Bool)
  | [] => .error last
  | candidate :: others =>
      match candidate.index.lookup candidate.lookup candidate.ascending with
      | .ok entries => .ok (entries, candidate.sorted)
      | .error failure => Branch.read failure others

/-- The identities found for all alternatives, one alternative after the other, and whether all of
them come in the order asked for. One alternative that cannot be read at all makes the union fail,
as `Branch.read` of it does. -/
def readBranches : List Branch → Except Failure (List Rid × Bool)
  | [] => .ok ([], true)
  | branch :: branches =>
      match Branch.read .notFound branch with
      | .error failure => .error failure
      | .ok (entries, sorted) =>
          match readBranches branches with
          | .error failure => .error failure
          | .ok (rids, others) => .ok (entries.map (·.rid) ++ rids, sorted && others)

mutual

/-- What opening a source gives. An index that cannot be read gives `.unavailable`, for which a plan
may have a fallback. Only a failure of a scan, or of the index that a query names as its target, is
an error. Of the parts of a fan-out one that is unavailable makes the whole unavailable. `merges`
says whether a fan-out keeps the order of its parts. -/
def Source.opened (store : Store) (merges : Bool) : Source → Except Failure Opened
  | .records rids =>
      .ok (.stream (.plain ((firstOccurrences [] rids).filterMap store.load)) false)
  | .scan plan =>
      (store.scanClusters plan.clusters plan.direction plan.range).map fun items =>
        .stream (.scan items true) true
  | .union branches =>
      .ok (match readBranches branches with
        | .error failure => .unavailable failure
        | .ok (rids, sorted) => .stream (.lookup rids) (branches.length == 1 && sorted))
  | .sortedWalk index ascending =>
      .ok (match index.orderedWalk ascending (!index.definition.ignoreNulls) with
        | .ok entries => .stream (.lookup (entries.map (·.rid))) true
        | .error failure => .unavailable failure)
  | .fanOut parts =>
      match Source.openedParts store merges parts with
      | .error failure => .error failure
      | .ok (.error failure) => .ok (.unavailable failure)
      | .ok (.ok (streams, sorted)) =>
          .ok (.stream (if merges then .merge streams none true else .concat streams) sorted)
  | .indexTarget index lookup keys ascending =>
      let found : Except Failure (List IndexEntry) := match lookup with
        | some query => index.lookup query ascending
        | none => index.orderedWalk ascending (!index.definition.ignoreNulls)
      found.map fun entries =>
        .stream (.plain ((entries.filter fun entry => keys.accepts entry.key).map
          (entryRecord index.definition.isComposite))) true

/-- What opening the parts of a fan-out gives, from left to right. The inner `.error` says that a
part is `unavailable`. -/
def Source.openedParts (store : Store) (merges : Bool) :
    List Source → Except Failure (Except Failure (List Stream × Bool))
  | [] => .ok (.ok ([], true))
  | part :: parts =>
      match Source.opened store merges part with
      | .error failure => .error failure
      | .ok (.unavailable failure) => .ok (.error failure)
      | .ok (.stream stream sorted) =>
          match Source.openedParts store merges parts with
          | .error failure => .error failure
          | .ok (.error failure) => .ok (.error failure)
          | .ok (.ok (streams, others)) => .ok (.ok (stream :: streams, sorted && others))

end

section

open Exec

variable (env : Env)

/-- `openBranch` notes a warning and a probe for each candidate, and gives what `Branch.read`
says. -/
theorem openBranch_gives (last : Failure) (branch : Branch) :
    Gives (openBranch last branch) (.ok (branch.read last)) := by
  induction branch generalizing last with
  | nil => exact gives_pure _
  | cons candidate others ih =>
      unfold openBranch Branch.read
      cases candidate.index.lookup candidate.lookup candidate.ascending with
      | ok entries => exact (gives_noteProbe _).bind (gives_pure _)
      | error failure => exact (gives_warn _).bind (ih failure)

/-- `openBranches` gives what `readBranches` reads, and only counts and notes on the way. -/
theorem openBranches_gives (branches : List Branch) :
    Gives (openBranches branches) (.ok (readBranches branches)) := by
  induction branches with
  | nil => exact gives_pure _
  | cons branch branches ih =>
      unfold openBranches readBranches
      refine (openBranch_gives .notFound branch).bind ?_
      rcases branch.read .notFound with failure | ⟨entries, sorted⟩
      · exact gives_pure _
      · refine ih.bind ?_
        rcases readBranches branches with failure | ⟨rids, others⟩
        · exact gives_pure _
        · exact gives_pure _

/-- `openScan` gives the items of the clusters, one cluster after the other. -/
theorem openScan_gives (scan : ScanPlan) :
    Gives (openScan env scan)
      ((env.store.scanClusters scan.clusters scan.direction scan.range).map fun items =>
        .scan items true) := by
  refine (gives_enter _).bind ?_
  cases env.store.scanClusters scan.clusters scan.direction scan.range with
  | error failure => exact gives_throw failure
  | ok items => exact gives_pure _

mutual

/-- `openSource` gives what `Source.opened` says, and changes only what is counted and noted. The
proof goes along the source, with `openParts_gives` for the parts of a fan-out. -/
theorem openSource_gives (merges : Bool) : ∀ source : Source,
    Gives (openSource env merges source) (source.opened env.store merges)
  | .records rids => by
      unfold openSource Source.opened
      exact (gives_enter _).bind (gives_pure _)
  | .scan plan => by
      unfold openSource Source.opened
      have hscan := openScan_gives env plan
      cases hitems : env.store.scanClusters plan.clusters plan.direction plan.range with
      | error failure =>
          rw [hitems] at hscan
          exact hscan.bind_error
      | ok items =>
          rw [hitems] at hscan
          exact hscan.bind (gives_pure _)
  | .union branches => by
      unfold openSource Source.opened
      refine (gives_enter _).bind ((openBranches_gives branches).bind ?_)
      -- lookups that fail are no failure of the source: it is unavailable
      rcases readBranches branches with failure | ⟨rids, sorted⟩
      · exact gives_pure _
      · exact gives_pure _
  | .sortedWalk index ascending => by
      unfold openSource Source.opened
      refine (gives_enter _).bind ?_
      cases index.orderedWalk ascending (!index.definition.ignoreNulls) with
      | error failure => exact (gives_warn _).bind (gives_pure _)
      | ok entries => exact (gives_noteProbe _).bind (gives_pure _)
  | .fanOut parts => by
      unfold openSource Source.opened
      have hparts := openParts_gives merges parts
      rcases hopened : Source.openedParts env.store merges parts with
        failure | failure | ⟨streams, sorted⟩
      · rw [hopened] at hparts
        exact hparts.bind_error
      · rw [hopened] at hparts
        exact hparts.bind (gives_pure _)
      · rw [hopened] at hparts
        exact hparts.bind (gives_pure _)
  | .indexTarget index lookup keys ascending => by
      unfold openSource Source.opened
      refine (gives_enter _).bind ?_
      cases lookup with
      | none =>
          cases index.orderedWalk ascending (!index.definition.ignoreNulls) with
          | error failure => exact gives_throw failure
          | ok entries => exact (gives_noteProbe _).bind (gives_pure _)
      | some query =>
          dsimp only
          cases index.lookup query ascending with
          | error failure => exact gives_throw failure
          | ok entries => exact (gives_noteProbe _).bind (gives_pure _)

/-- Opening the parts of a fan-out gives what `Source.openedParts` says. -/
theorem openParts_gives (merges : Bool) : ∀ parts : List Source,
    Gives (openParts env merges parts) (Source.openedParts env.store merges parts)
  | [] => by
      unfold openParts Source.openedParts
      exact gives_pure _
  | part :: parts => by
      unfold openParts Source.openedParts
      have hpart := openSource_gives merges part
      have hparts := openParts_gives merges parts
      -- the other parts are opened only if this one could be
      rcases hopened : part.opened env.store merges with failure | ⟨stream, sorted⟩ | failure
      · rw [hopened] at hpart
        exact hpart.bind_error
      · rw [hopened] at hpart
        refine hpart.bind ?_
        rcases hothers : Source.openedParts env.store merges parts with
          failure | failure | ⟨streams, others⟩
        · rw [hothers] at hparts
          exact hparts.bind_error
        · rw [hothers] at hparts
          exact hparts.bind (gives_pure _)
        · rw [hothers] at hparts
          exact hparts.bind (gives_pure _)
      · rw [hopened] at hpart
        exact hpart.bind (gives_pure _)

end

/-- The stream that a plan opens, and whether the records come in the order asked for. It is the
stream of the source, or of the fallback scan where an index cannot be read. A fallback scan is in
order only if no order was asked for: `orderBy` is empty. -/
def Plan.opened (plan : Plan) (store : Store) (query : SelectQuery) (source : Source) :
    Except Failure (Stream × Bool) :=
  match source.opened store (plan.orderSatisfied && !query.orderBy.isEmpty) with
  | .error failure => .error failure
  | .ok (.stream stream sorted) =>
      .ok (stream, plan.orderSatisfied && (sorted || !plan.fullySorted))
  | .ok (.unavailable failure) =>
      match plan.fallback with
      | none => .error failure
      | some scan =>
          (store.scanClusters scan.clusters scan.direction scan.range).map fun items =>
            (.scan items true, query.orderBy.isEmpty)

/-- The inversion of `Plan.opened`: the stream is that of the source, or the source was unavailable
and the stream is the scan of the fallback. -/
theorem Plan.opened_cases {plan : Plan} {store : Store} {query : SelectQuery} {source : Source}
    {stream : Stream} {ordered : Bool}
    (h : plan.opened store query source = .ok (stream, ordered)) :
    (∃ sorted, source.opened store (plan.orderSatisfied && !query.orderBy.isEmpty) =
        .ok (.stream stream sorted) ∧
      ordered = (plan.orderSatisfied && (sorted || !plan.fullySorted))) ∨
    ∃ failure scan items, source.opened store (plan.orderSatisfied && !query.orderBy.isEmpty) =
        .ok (.unavailable failure) ∧
      plan.fallback = some scan ∧
      store.scanClusters scan.clusters scan.direction scan.range = .ok items ∧
      stream = .scan items true ∧ ordered = query.orderBy.isEmpty := by
  unfold Plan.opened at h
  split at h
  · cases h
  next sorted hopened =>
    cases h
    exact .inl ⟨sorted, hopened, rfl⟩
  -- without a fallback an unavailable source is a failure
  next failure hopened =>
    split at h
    · cases h
    next scan hfallback =>
      obtain ⟨items, hitems, hstream⟩ := Steps.map_ok h
      cases hstream
      exact .inr ⟨failure, scan, items, hopened, hfallback, hitems, rfl, rfl⟩

/-- `openPlan` gives what `Plan.opened` says, and changes only what is counted and noted. -/
theorem openPlan_gives (query : SelectQuery) (plan : Plan) (source : Source) :
    Gives (openPlan env query plan source) (plan.opened env.store query source) := by
  unfold openPlan Plan.opened
  have hsource := openSource_gives env (plan.orderSatisfied && !query.orderBy.isEmpty) source
  rcases hopened : source.opened env.store (plan.orderSatisfied && !query.orderBy.isEmpty) with
    failure | ⟨stream, sorted⟩ | failure
  · rw [hopened] at hsource
    exact hsource.bind_error
  · rw [hopened] at hsource
    refine hsource.bind ?_
    cases sorted with
    | true => exact (gives_pure _).bind (gives_pure _)
    | false => exact (gives_count _).bind (gives_pure _)
  · rw [hopened] at hsource
    refine hsource.bind ?_
    cases plan.fallback with
    | none => exact gives_throw failure
    | some scan =>
        -- a source that is unavailable is replaced by the scan to fall back to
        have hscan := openScan_gives env scan
        refine (gives_count _).bind ?_
        dsimp only
        cases hitems : env.store.scanClusters scan.clusters scan.direction scan.range with
        | error failure =>
            rw [hitems] at hscan
            exact hscan.bind_error
        | ok items =>
            rw [hitems] at hscan
            exact hscan.bind (gives_pure _)

end

/-! ## The opened stream

What is opened has not been pulled: no merge holds a record. So the stream is `Consistent`, and its
size bounds how many records it has. -/

section

variable {store : Store} {merges : Bool}

/-- The stream holds no record, is `Consistent`, and its `weight` is at most its `size`. -/
def Stream.IsFresh (stream : Stream) : Prop :=
  stream.Consistent ∧ stream.contents.held = [] ∧ stream.contents.weight ≤ stream.size

/-- Streams that are each `IsFresh` are so together. -/
theorem allConsistent_of_fresh {streams : List Stream} (h : ∀ s ∈ streams, s.IsFresh) :
    Stream.AllConsistent streams ∧ (Stream.contentsOfAll streams).held = [] ∧
      (Stream.contentsOfAll streams).weight ≤ Stream.sizeOfAll streams := by
  induction streams with
  | nil => exact ⟨trivial, rfl, Nat.le_refl _⟩
  | cons s streams ih =>
      obtain ⟨hconsistent, hheld, hweight⟩ := h s (List.mem_cons_self ..)
      obtain ⟨hconsistent', hheld', hweight'⟩ := ih fun t ht => h t (List.mem_cons_of_mem _ ht)
      refine ⟨⟨hconsistent, hconsistent'⟩, ?_, ?_⟩
      · simp only [Stream.contentsOfAll, Contents.append, hheld, hheld', List.append_nil]
      · simp only [Stream.contentsOfAll, Stream.sizeOfAll, Contents.append, Contents.weight,
          List.length_append] at hweight hweight' ⊢
        omega

/-- A merge or a concatenation of fresh streams `IsFresh`: a merge that was not pulled holds no
heads. -/
theorem isFresh_fanOut {streams : List Stream} (h : ∀ s ∈ streams, s.IsFresh) :
    (if merges then Stream.merge streams none true else .concat streams).IsFresh := by
  cases merges <;> exact allConsistent_of_fresh h

mutual

/-- The stream that a source is opened to `IsFresh`. -/
theorem Source.opened_isFresh : ∀ {source : Source} {stream : Stream} {sorted : Bool},
    source.opened store merges = .ok (.stream stream sorted) → stream.IsFresh
  | .records rids, _, _, h => by
      unfold Source.opened at h
      cases h
      exact ⟨trivial, rfl, by simp [Stream.contents, Contents.weight, Stream.size]⟩
  | .scan plan, _, _, h => by
      unfold Source.opened at h
      cases hitems : store.scanClusters plan.clusters plan.direction plan.range with
      | error failure => rw [hitems] at h; cases h
      | ok items =>
          rw [hitems] at h
          cases h
          exact ⟨trivial, rfl, by simp [Stream.contents, Contents.weight, Stream.size]⟩
  | .union branches, _, _, h => by
      unfold Source.opened at h
      split at h
      · cases h
      · cases h
        exact ⟨trivial, rfl, by simp [Stream.contents, Contents.weight, Stream.size]⟩
  | .sortedWalk index ascending, _, _, h => by
      unfold Source.opened at h
      split at h
      · cases h
        exact ⟨trivial, rfl, by simp [Stream.contents, Contents.weight, Stream.size]⟩
      · cases h
  | .fanOut parts, _, _, h => by
      unfold Source.opened at h
      split at h
      · cases h
      · cases h
      next streams sorted hparts =>
        cases h
        exact isFresh_fanOut (Source.openedParts_isFresh hparts)
  | .indexTarget index wanted keys ascending, _, _, h => by
      unfold Source.opened at h
      obtain ⟨entries, -, hstream⟩ := Steps.map_ok h
      cases hstream
      exact ⟨trivial, rfl, by simp [Stream.contents, Contents.weight, Stream.size]⟩

/-- The opened parts of a fan-out are fresh. Mutual with `Source.opened_isFresh`. -/
theorem Source.openedParts_isFresh : ∀ {parts : List Source} {streams : List Stream}
    {sorted : Bool}, Source.openedParts store merges parts = .ok (.ok (streams, sorted)) →
    ∀ s ∈ streams, s.IsFresh
  | [], _, _, h => by
      unfold Source.openedParts at h
      cases h
      simp
  | part :: parts, _, _, h => by
      unfold Source.openedParts at h
      split at h
      · cases h
      · cases h
      next stream sorted hpart =>
        split at h
        · cases h
        · cases h
        next streams others hparts =>
          cases h
          refine List.forall_mem_cons.mpr ⟨Source.opened_isFresh hpart, ?_⟩
          exact Source.openedParts_isFresh hparts

end

/-- The stream that a plan opens `IsFresh`, be it that of its source or of its fallback. -/
theorem Plan.opened_isFresh {plan : Plan} {query : SelectQuery} {source : Source}
    {stream : Stream} {sorted : Bool}
    (h : plan.opened store query source = .ok (stream, sorted)) : stream.IsFresh := by
  rcases Plan.opened_cases h with ⟨_, hopened, -⟩ | ⟨_, _, items, -, -, -, rfl, -⟩
  · exact Source.opened_isFresh hopened
  · exact ⟨trivial, rfl, by simp [Stream.contents, Contents.weight, Stream.size]⟩

end

end RecordQuery
