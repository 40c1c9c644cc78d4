import Mathlib.Order.Defs.Unbundled
import RecordQuery.Proofs.Steps
import RecordQuery.Run.Serial

/-!
# `RecordQuery.Proofs.Effects`: what a step does to the run

Most of what a run does beside its result is taking notes: times, warnings and counters. A relation
`R` between runs that overlooks such notes (`Run.Overlooks R`) holds across every part of a run that
does nothing else. Across the other parts it holds as soon as it holds of the two steps that do
more, calling the sink and entering a phase. So each part of a run is opened once here, for all
relations.

`Exec.Relates R step` says that the run after the step is in the relation to the run before,
whatever comes of it. The relation is a preorder, so that a sequence of steps is in the relation
when each of them is (`Exec.Relates.bind`). The calls of the sink, the phases and the counters of
records are each described by a relation of this kind, in `RecordQuery.Proofs.SinkCalls`,
`RecordQuery.Proofs.Phases` and `RecordQuery.Proofs.SerialCounts`.

The counters `Stats.counted` are left out of the notes. They count the records read, and a relation
may want to know of them.

The theorems:

* `Exec.Relates.bind`: one step after the other.
* `relates_pullRecord`, `Pipeline.relates_keep`: parts that only take notes.
* `Pipeline.relates_accept`, `Pipeline.relates_finish`: the parts of a pipeline, which call the
  sink.
* `relates_openPlan`: opening the source of a plan, which enters a phase.
-/

set_option autoImplicit false

namespace RecordQuery

open Steps

/-! ## Relations between the runs before and after a step

`Exec.Relates R step` is about every outcome of a step, failures included. As `R` is a preorder, it
holds of a program when it holds of its steps. -/

namespace Exec

variable {α β : Type} {R : Run → Run → Prop}

/-- Whatever comes of the step, a result or a failure, the run afterwards is in the relation `R` to
the run before. -/
def Relates (R : Run → Run → Prop) (step : Exec α) : Prop := ∀ run, R run (step.run.run run).2

/-- The run after a step that has come to a result (`hrun`) is in the relation. -/
theorem Relates.run {step : Exec α} (h : Relates R step) {run after : Run}
    {result : Except Failure α} (hrun : step.run.run run = (result, after)) : R run after := by
  have hafter := h run
  rwa [hrun] at hafter

/-- A choice between steps that are in the relation, whatever `condition` says. -/
theorem Relates.ite {condition : Prop} [Decidable condition] {step other : Exec α}
    (h : Relates R step) (hother : Relates R other) :
    Relates R (if condition then step else other) := by
  split
  · exact h
  · exact hother

variable [IsPreorder Run R]

/-- `pure` leaves the run as it is, and `R` is reflexive. -/
theorem relates_pure (a : α) : Relates R (pure a) := fun run => refl_of R run

/-- `throw` leaves the run as it is. -/
theorem relates_throw (failure : Failure) : Relates R (throw failure : Exec α) :=
  fun run => refl_of R run

/-- One step after the other, by the transitivity of `R`. Where the first one fails, the second one
is not taken, and the relation holds by the first. -/
theorem Relates.bind {step : Exec α} {next : α → Exec β} (h : Relates R step)
    (hnext : ∀ a, Relates R (next a)) : Relates R (step >>= next) := by
  intro run
  rw [run_bind]
  rcases hstep : step.run.run run with ⟨failure | a, mid⟩
  · exact h.run hstep
  · exact trans_of R (h.run hstep) (hnext a mid)

end Exec

open Exec

/-! ## Notes

Most steps only take notes. `Run.Overlooks` says of a relation that it does not see these, and then
one lemma covers all of them. -/

/-- The number of records read, `reads`, and of those that belong to the class of the target,
`analyzed`. -/
def Stats.counted (stats : Stats) : Nat × Nat := (stats.reads, stats.analyzed)

/-- The relation holds where only notes are taken. Events that are no phases are noted, or counters
change that are not those of `Stats.counted`. -/
structure Run.Overlooks (R : Run → Run → Prop) : Prop where
  /-- Events that are no phases may be noted. -/
  events : ∀ (run : Run) (events : List Event),
    (∀ event ∈ events, ∀ phase, event ≠ .phase phase) →
      R run { run with events := events ++ run.events }
  /-- Counters may change, apart from those of the records read. -/
  count : ∀ (run : Run) (change : Stats → Stats),
    (∀ stats, (change stats).counted = stats.counted) → R run (run.modifyStats change)

section

variable {R : Run → Run → Prop} (h : Run.Overlooks R)

include h

/-- Times may be noted: `timer` is no phase. -/
theorem Run.Overlooks.timers (run : Run) (timers : List Timer) :
    R run { run with events := timers.map .timer ++ run.events } := by
  refine h.events run _ fun event hevent phase => ?_
  obtain ⟨timer, -, rfl⟩ := List.mem_map.mp hevent
  exact Event.noConfusion

/-- `time` takes a note. -/
theorem relates_time (timer : Timer) : Relates R (time timer) := fun run => h.timers run [timer]

/-- `warn` takes a note. -/
theorem relates_warn (warning : Warning) : Relates R (warn warning) := by
  refine fun run => h.events run [.warning warning] fun event hevent phase => ?_
  rw [List.mem_singleton.mp hevent]
  exact Event.noConfusion

/-- `count` takes a note, if it counts no record (`hchange`). -/
theorem relates_count {change : Stats → Stats}
    (hchange : ∀ stats, (change stats).counted = stats.counted) : Relates R (count change) :=
  fun run => h.count run change hchange

/-- `pullRecord` notes the times that the pull took, and nothing else of the run. -/
theorem relates_pullRecord (env : Env) (order : List OrderItem) (state : SerialState) :
    Relates R (pullRecord env order state) := by
  intro run
  unfold pullRecord
  rcases (state.stream.pull order env.store.load).run.run ⟨state.seen, []⟩ with
    ⟨failure | ⟨record, stream⟩, pulled⟩
  · exact h.timers run _
  · exact h.timers run _

variable [IsPreorder Run R]

/-- `noteProbe` takes a note and counts no record. -/
theorem relates_noteProbe (index : Index) : Relates R (noteProbe index) :=
  (relates_time h _).bind fun _ => relates_count h fun _ => rfl

/-! ## Pipelines

What a pipeline does beside taking notes is to push rows and to enter phases. So a relation holds of
it if it holds of these two. -/

namespace Pipeline

/-- `Pipeline.keep` notes the time of a sort, where it cuts back. -/
theorem relates_keep (env : Env) (setup : PipelineSetup) (pipeline : Pipeline) (scope : Scope)
    (record : Record) : Relates R (pipeline.keep env setup scope record) := by
  unfold keep
  dsimp only
  cases setup.keep? with
  | none => exact relates_pure _
  | some count => exact .ite ((relates_time h _).bind fun _ => relates_pure _) (relates_pure _)

/-- `keptRows` notes the time of a sort, and does nothing else to the run. -/
theorem relates_keptRows (env : Env) (setup : PipelineSetup) (pipeline : Pipeline) :
    Relates R (pipeline.keptRows env setup) :=
  .ite ((relates_time h _).bind fun _ => relates_pure _) (relates_pure _)

section

variable {env : Env} {setup : PipelineSetup} (hpush : ∀ row, Relates R (Exec.push env row))

include hpush

/-- `Pipeline.deliver` calls the sink (`hpush`), perhaps after a warning. -/
theorem relates_deliver (pipeline : Pipeline) (row : Row) :
    Relates R (pipeline.deliver env setup row) := by
  have hdeliver (more : Bool → Bool × Pipeline) :
      Relates R (Exec.push env row >>= fun wanted => pure (more wanted)) :=
    (hpush row).bind fun _ => relates_pure _
  exact .ite ((relates_warn h _).bind fun _ => hdeliver _) (hdeliver _)

/-- `deliverAll` does what delivering each of the rows does. -/
theorem relates_deliverAll (pipeline : Pipeline) (rows : List Row) :
    Relates R (pipeline.deliverAll env setup rows) := by
  induction rows generalizing pipeline with
  | nil => exact relates_pure _
  | cons row rows ih =>
      exact (relates_deliver h hpush pipeline row).bind fun (_, next) =>
        .ite (ih next) (relates_pure _)

/-- `Pipeline.accept` gathers, skips, delivers or keeps the record, and only delivering calls the
sink. -/
theorem relates_accept (pipeline : Pipeline) (scope : Scope) (record : Record) :
    Relates R (pipeline.accept env setup scope record) := by
  have hkeep : Relates R (pipeline.keep env setup scope record >>= fun kept =>
      pure (true, kept)) :=
    (relates_keep h env setup pipeline scope record).bind fun _ => relates_pure _
  exact .ite (relates_pure _)
    (.ite (.ite (relates_pure _) (relates_deliver h hpush _ _)) hkeep)

/-- `Pipeline.finish` enters phases (`henter`) and delivers what was kept. -/
theorem relates_finish (henter : ∀ phase, Relates R (Exec.enter phase)) (pipeline : Pipeline) :
    Relates R (pipeline.finish env setup) := by
  have hlast {α : Type} (a : α) : Relates R (Exec.enter .delivered >>= fun _ => pure a) :=
    (henter _).bind fun _ => relates_pure _
  have hgroups : Relates R (pipeline.groupRows setup) :=
    (henter _).bind fun _ =>
      .ite (relates_pure _) ((relates_time h _).bind fun _ => relates_pure _)
  have hrest (rows : List Row) : Relates R (Exec.enter .sorted >>= fun _ =>
      Exec.enter .limited >>= fun _ =>
        pipeline.deliverAll env setup (page setup.query (unwindRows setup.query.unwind rows)) >>=
          fun done => Exec.enter .delivered >>= fun _ => pure done.delivered) :=
    (henter _).bind fun _ => (henter _).bind fun _ =>
      (relates_deliverAll h hpush _ _).bind fun _ => hlast _
  refine (henter _).bind fun _ => .ite ((henter _).bind fun _ => hlast _) ?_
  exact .ite (hgroups.bind hrest) ((relates_keptRows h env setup pipeline).bind hrest)

end

end Pipeline

/-! ## Opening sources

Opening a source enters the phase of scans or that of indexes, and takes notes. -/

/-- `openBranch` notes which candidate it has read. -/
theorem relates_openBranch (last : Failure) (branch : Branch) :
    Relates R (openBranch last branch) := by
  induction branch generalizing last with
  | nil => exact relates_pure _
  | cons candidate others ih =>
      unfold openBranch
      split
      · exact (relates_noteProbe h _).bind fun _ => relates_pure _
      · exact (relates_warn h _).bind fun _ => ih _

/-- `openBranches` takes the notes of each `openBranch`. -/
theorem relates_openBranches (branches : List Branch) : Relates R (openBranches branches) := by
  induction branches with
  | nil => exact relates_pure _
  | cons branch branches ih =>
      unfold openBranches
      refine (relates_openBranch h _ branch).bind fun found => ?_
      rcases found with failure | ⟨entries, sorted⟩
      · exact relates_pure _
      · refine ih.bind fun others => ?_
        rcases others with failure | ⟨rids, others⟩
        · exact relates_pure _
        · exact relates_pure _

end

section

variable {R : Run → Run → Prop} [IsPreorder Run R]

/-- `openScan` enters the phase of scans. It counts nothing, as records are counted where they are
evaluated. -/
theorem relates_openScan (hscan : Relates R (Exec.enter .scan)) (env : Env) (scan : ScanPlan) :
    Relates R (openScan env scan) := by
  refine hscan.bind fun _ => ?_
  split
  · exact relates_pure _
  · exact relates_throw _

mutual

/-- `openSource` enters the phases of scans and of lookups, and takes notes. -/
theorem relates_openSource (h : Run.Overlooks R) (hscan : Relates R (Exec.enter .scan))
    (hindex : Relates R (Exec.enter .indexStream)) (env : Env) (merges : Bool) :
    ∀ source : Source, Relates R (openSource env merges source)
  | .records rids => by
      unfold openSource
      exact hscan.bind fun _ => relates_pure _
  | .scan plan => by
      unfold openSource
      exact (relates_openScan hscan env plan).bind fun _ => relates_pure _
  | .union branches => by
      unfold openSource
      refine hindex.bind fun _ => (relates_openBranches h branches).bind fun found => ?_
      rcases found with failure | ⟨rids, sorted⟩
      · exact relates_pure _
      · exact relates_pure _
  | .sortedWalk index ascending => by
      unfold openSource
      refine hindex.bind fun _ => ?_
      split
      · exact (relates_noteProbe h _).bind fun _ => relates_pure _
      · exact (relates_warn h _).bind fun _ => relates_pure _
  | .fanOut parts => by
      unfold openSource
      refine (relates_openParts h hscan hindex env merges parts).bind fun found => ?_
      rcases found with failure | ⟨streams, sorted⟩
      · exact relates_pure _
      · exact relates_pure _
  | .indexTarget index lookup keys ascending => by
      unfold openSource
      refine hindex.bind fun _ => ?_
      dsimp only
      split
      · exact relates_throw _
      · exact (relates_noteProbe h _).bind fun _ => relates_pure _

/-- `openParts` opens the parts of a fan-out, each by `relates_openSource`. -/
theorem relates_openParts (h : Run.Overlooks R) (hscan : Relates R (Exec.enter .scan))
    (hindex : Relates R (Exec.enter .indexStream)) (env : Env) (merges : Bool) :
    ∀ parts : List Source, Relates R (openParts env merges parts)
  | [] => by
      unfold openParts
      exact relates_pure _
  | part :: parts => by
      unfold openParts
      refine (relates_openSource h hscan hindex env merges part).bind fun opened => ?_
      cases opened with
      | unavailable failure => exact relates_pure _
      | stream stream sorted =>
          refine (relates_openParts h hscan hindex env merges parts).bind fun found => ?_
          rcases found with failure | ⟨streams, others⟩
          · exact relates_pure _
          · exact relates_pure _

end

/-- `openPlan` opens the source, or the scan to fall back to, with a warning in between. -/
theorem relates_openPlan (h : Run.Overlooks R) (hscan : Relates R (Exec.enter .scan))
    (hindex : Relates R (Exec.enter .indexStream)) (env : Env) (query : SelectQuery) (plan : Plan)
    (source : Source) :
    Relates R (openPlan env query plan source) := by
  have hcount : Relates R (Exec.count fun stats => { stats with fullySorted := false }) :=
    relates_count h fun _ => rfl
  -- that the order was lost is only counted
  have hunsorted {α : Type} {next : Exec α} (hnext : Relates R next) :
      Relates R
        (Exec.count (fun stats => { stats with fullySorted := false }) >>= fun _ => next) :=
    hcount.bind fun _ => hnext
  unfold openPlan
  refine (relates_openSource h hscan hindex env _ source).bind fun opened => ?_
  cases opened with
  | stream stream sorted => exact .ite (hunsorted (relates_pure _)) (relates_pure _)
  | unavailable failure =>
      cases plan.fallback with
      | none => exact relates_throw _
      | some scan =>
          exact hunsorted ((relates_openScan hscan env scan).bind fun _ => relates_pure _)

end

end RecordQuery
