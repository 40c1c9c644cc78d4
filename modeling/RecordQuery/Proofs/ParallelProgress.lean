import Mathlib.Algebra.Ring.Nat
import RecordQuery.Proofs.ParallelSteps

/-!
# `RecordQuery.Proofs.ParallelProgress`: a parallel scan comes to an end

Two facts about `ParallelScan.Step` need nothing of what the workers and the consumer do with the
records. Every step leaves less work, and a scan that is not over has a step left. Together they say
that every interleaving ends, and that it ends with the consumer's end of the queue closed and every
worker ended, `ParallelState.isComplete`.

The work is `ParallelScan.weight`. An item weighs seven while its worker has not read it: four for
the steps of the worker (`goesOn`, `reads`, `blocks`, `enqueues`) and three for those of the consumer
(`takes`, `goesOn`, and `accepts`, `refuses` or `fails`). A record keeps the three in the queue.
`stepBound` is the weight of the scan before its first step, or more (`weight_start_le`), so the
number of steps that `drive` is given never cuts a run short (`drive_isComplete`).

`stepWorker_moves` and `stepConsumer_moves` say what a step can change at all. They hold for every
`Consumer`, and so for one whose clock and tokens are changed by others between two steps.

`exists_nextStep` is the absence of a deadlock. Nobody waits but a worker that is `blocked`, for room
in the queue or for the consumer to close, and a consumer that is `receiving`, for a record or for
the last worker to end. The queue cannot be full and empty at once, as its capacity is positive.
-/

set_option autoImplicit false

namespace RecordQuery

/-- The items that `scanCluster` gives for a cluster; none if the scan cannot be opened. -/
def ParallelSetup.itemsOf (setup : ParallelSetup) (id : ClusterId) : List ScanItem :=
  (setup.evaluator.store.scanCluster id setup.scan.direction setup.scan.range).toOption.getD []

/-! ## Work that is left

The weights of workers, consumer and queue add up to `ParallelScan.weight`. A step moves a record
from one to the other, and it always weighs less where it arrives. -/

/-- A bound for the steps of a worker and for those that use its records: seven for each item of its
cluster that it has not done with, by its `phase`. -/
def Worker.weight (setup : ParallelSetup) (worker : Worker) : Nat :=
  match worker.phase with
  | .starting => 7 * (setup.itemsOf worker.cluster).length + 2
  | .scanning items => 7 * items.length + 1
  | .reading _ items => 7 * items.length + 7
  | .offering _ items => 7 * items.length + 6
  | .blocked _ items => 7 * items.length + 5
  | .ended _ => 0

namespace ConsumerPhase

/-- A bound for the steps of the consumer in its `phase`, apart from those that use the records in
the queue: the record in its hand, its call for a stop, and its close. -/
def weight : ConsumerPhase → Nat
  | .receiving => 2
  | .taken _ => 4
  | .handling _ => 3
  | .closing _ => 1
  | .closed _ => 0

/-- Whether the consumer uses records: it has not raised `stop`. -/
def isTaking : ConsumerPhase → Bool
  | .receiving | .taken _ | .handling _ => true
  | .closing _ | .closed _ => false

end ConsumerPhase

namespace ParallelScan

section

variable {σ : Type} {setup : ParallelSetup} {consumer : Consumer σ} {state next : ParallelState σ}

/-- The work that a parallel scan still has. -/
def weight (setup : ParallelSetup) (state : ParallelState σ) : Nat :=
  3 * state.queue.length + (state.workers.map (Worker.weight setup)).sum + state.phase.weight

/-- A consumer that `isTaking` records has not closed its end of the queue. -/
theorem isOpen_of_isTaking (h : state.phase.isTaking = true) : state.isOpen = true := by
  cases hphase : state.phase with
  | receiving | taken item | handling item | closing failure =>
      simp [ParallelState.isOpen, hphase]
  | closed failure =>
      rw [hphase] at h
      cases h

/-- `setWorker` changes the worker at its place and none of the others. -/
theorem setWorker_split {place : Nat} {worker : Worker}
    (hworker : state.workers[place]? = some worker) :
    ∃ before behind, state.workers = before ++ worker :: behind ∧
      ∀ after, (state.setWorker place after).workers = before ++ after :: behind := by
  obtain ⟨hplace, hget⟩ := List.getElem?_eq_some_iff.mp hworker
  refine ⟨state.workers.take place, state.workers.drop (place + 1), ?_, fun after => ?_⟩
  · rw [← hget, ← List.drop_eq_getElem_cons hplace, List.take_append_drop]
  · exact List.set_eq_take_append_cons_drop.trans (if_pos hplace)

/-! ## What a step can change

These lemmas open the functions of a step, for every consumer. Each of them says what the step
leaves alone as well. -/

/-- `readItem` changes the worker, which has less work then, and perhaps calls for a stop. The queue
and the consumer stay as they are. -/
theorem readItem_moves {place : Nat} {worker : Worker} {item : ScanItem} {items : List ScanItem}
    (signals : Signals) (hnow : worker.phase = .reading item items) :
    ∃ after, (readItem setup signals state place worker item items).workers =
        (state.setWorker place after).workers ∧
      (readItem setup signals state place worker item items).queue = state.queue ∧
      (readItem setup signals state place worker item items).phase = state.phase ∧
      (readItem setup signals state place worker item items).consumer = state.consumer ∧
      after.weight setup < worker.weight setup := by
  have hweight : worker.weight setup = 7 * items.length + 7 := by simp [Worker.weight, hnow]
  -- each way in which reading ends leaves the worker in a phase of less weight
  have hless {after : Worker} (h : after.weight setup ≤ 7 * items.length + 6) :
      after.weight setup < worker.weight setup := by omega
  unfold readItem
  split
  · exact ⟨_, rfl, rfl, rfl, rfl, hless (Nat.zero_le _)⟩
  · exact ⟨_, rfl, rfl, rfl, rfl, hless (Nat.zero_le _)⟩
  · split
    · exact ⟨_, rfl, rfl, rfl, rfl, hless (Nat.zero_le _)⟩
    · dsimp only
      split
      · exact ⟨_, rfl, rfl, rfl, rfl, hless (Nat.zero_le _)⟩
      · refine ⟨_, rfl, rfl, rfl, rfl, hless ?_⟩
        simp [Worker.weight]
      · exact ⟨_, rfl, rfl, rfl, rfl, hless le_rfl⟩

/-- `stepWorker` changes the worker, perhaps the queue and the stop flag, and nothing of the
consumer. What leaves the worker for the queue weighs less there. -/
theorem stepWorker_moves {place : Nat} (hstep : stepWorker setup consumer state place = some next) :
    ∃ worker after, state.workers[place]? = some worker ∧
      next.workers = (state.setWorker place after).workers ∧ next.phase = state.phase ∧
      next.consumer = state.consumer ∧
      3 * next.queue.length + after.weight setup <
        3 * state.queue.length + worker.weight setup := by
  obtain ⟨worker, hworker, hturn⟩ := stepWorker_eq_some_iff.mp hstep
  refine ⟨worker, ?_⟩
  have hends {ended : Worker} (hended : ended.weight setup = 0) (hheld : 0 < worker.weight setup) :
      3 * state.queue.length + ended.weight setup <
        3 * state.queue.length + worker.weight setup := by omega
  cases hturn with
  | @opens items hnow hscan =>
      have hall : setup.itemsOf worker.cluster = items := by
        simp [ParallelSetup.itemsOf, hscan, Except.toOption]
      refine ⟨_, hworker, rfl, rfl, rfl, ?_⟩
      show 3 * state.queue.length + (7 * items.length + 1) < _
      simp [Worker.weight, hnow, hall]
  | fails hnow | ends hnow | stops hnow =>
      exact ⟨_, hworker, rfl, rfl, rfl, hends rfl (by simp [Worker.weight, hnow])⟩
  | @goesOn item items hnow =>
      refine ⟨_, hworker, rfl, rfl, rfl, ?_⟩
      show 3 * state.queue.length + (7 * items.length + 7) < _
      simp only [Worker.weight, hnow, List.length_cons]
      omega
  | reads hnow =>
      obtain ⟨after, hworkers, hqueue, hphase, hconsumer, hless⟩ :=
        readItem_moves (consumer.signals state.consumer) hnow
      refine ⟨after, hworker, hworkers, hphase, hconsumer, ?_⟩
      rw [hqueue]
      omega
  | givesUp hholds =>
      refine ⟨_, hworker, rfl, rfl, rfl, hends rfl ?_⟩
      rcases hholds with hnow | hnow <;> simp [Worker.weight, hnow]
  | @enqueues item items hholds =>
      have hweight : 7 * items.length + 5 ≤ worker.weight setup := by
        rcases hholds with hnow | hnow <;> simp [Worker.weight, hnow]
      refine ⟨_, hworker, rfl, rfl, rfl, ?_⟩
      show 3 * (state.queue ++ [item]).length + (7 * items.length + 1) < _
      rw [List.length_append, List.length_singleton]
      omega
  | @blocks item items hnow =>
      refine ⟨_, hworker, rfl, rfl, rfl, ?_⟩
      show 3 * state.queue.length + (7 * items.length + 5) < _
      simp [Worker.weight, hnow]

/-- A step of the consumer changes no worker. A consumer that has called for a stop does not take
it back, and the state of the consumer changes only where it uses a record: then it goes on taking
records only if `consume` wants another one. -/
theorem stepConsumer_moves (hstep : stepConsumer consumer state = some next) :
    next.workers = state.workers ∧
      3 * next.queue.length + next.phase.weight <
        3 * state.queue.length + state.phase.weight ∧
      (next.phase.isTaking = true → state.phase.isTaking = true) ∧
      (next.consumer = state.consumer ∨
        ∃ item result, state.phase = .handling item ∧
          consumer.consume item state.consumer = (result, next.consumer) ∧
          (next.phase.isTaking = true → result = .ok true)) := by
  have hturn := stepConsumer_eq_some_iff.mp hstep
  cases hturn with
  | ends hnow | goesOn hnow | stops hnow =>
      exact ⟨rfl, by simp [stop, hnow, ConsumerPhase.weight], by simp [stop, hnow,
        ConsumerPhase.isTaking], .inl rfl⟩
  | takes hnow hqueue =>
      refine ⟨rfl, ?_, by simp [hnow, ConsumerPhase.isTaking], .inl rfl⟩
      simp only [hqueue, hnow, ConsumerPhase.weight, List.length_cons]
      omega
  | @accepts item after hnow hconsume =>
      exact ⟨rfl, by simp [hnow, ConsumerPhase.weight], by simp [hnow, ConsumerPhase.isTaking],
        .inr ⟨item, _, hnow, hconsume, fun _ => rfl⟩⟩
  | @refuses item after hnow hconsume | @fails item _ after hnow hconsume =>
      exact ⟨rfl, by simp [stop, hnow, ConsumerPhase.weight], by simp [hnow,
        ConsumerPhase.isTaking], .inr ⟨item, _, hnow, hconsume, by simp [stop,
        ConsumerPhase.isTaking]⟩⟩
  | closes hnow =>
      refine ⟨rfl, ?_, by simp [close, ConsumerPhase.isTaking], .inl rfl⟩
      simp only [close, hnow, ConsumerPhase.weight, List.length_nil]
      omega

/-- Every `Step` leaves less `weight`, whatever the consumer does. -/
theorem weight_step (hstep : Step setup consumer state next) :
    weight setup next < weight setup state := by
  obtain ⟨place | _, hstep⟩ := hstep
  · obtain ⟨worker, after, hworker, hworkers, hphase, -, hless⟩ := stepWorker_moves hstep
    obtain ⟨before, behind, hsplit, hset⟩ := setWorker_split hworker
    unfold weight
    rw [hworkers, hset, hsplit, hphase]
    simp only [List.map_append, List.map_cons, List.sum_append, List.sum_cons]
    omega
  · obtain ⟨hworkers, hless, -⟩ := stepConsumer_moves hstep
    unfold weight
    rw [hworkers]
    omega

/-! ## Steps that can be taken

A scan stands still only if everybody waits for somebody else. A worker waits for room in the queue
or for its closing, the consumer for a record or for the last worker, and one of these always comes.
-/

/-- The step that `nextStep` takes is the step of some actor. -/
theorem step_of_nextStep (h : nextStep setup consumer state = some next) :
    Step setup consumer state next := by
  have hworker (hfirst : firstWorkerStep setup consumer state = some next) :
      Step setup consumer state next := by
    obtain ⟨place, -, hstep⟩ := List.exists_of_findSome?_eq_some hfirst
    exact ⟨.worker place, hstep⟩
  unfold nextStep at h
  -- the workers go first while the consumer is idle, and the consumer while it is not
  split at h
  · cases hfirst : firstWorkerStep setup consumer state with
    | some found =>
        rw [hfirst] at h
        exact hworker (hfirst.trans h)
    | none =>
        rw [hfirst] at h
        exact ⟨.consumer, h⟩
  · cases hfirst : stepConsumer consumer state with
    | some found =>
        rw [hfirst] at h
        exact ⟨.consumer, hfirst.trans h⟩
    | none =>
        rw [hfirst] at h
        exact hworker h

/-- A worker that has not ended can take a step where the consumer has closed or the queue has room
(`hfree`). -/
theorem exists_stepWorker
    (hfree : state.isOpen = false ∨ state.queue.length < setup.capacity) {place : Nat}
    {worker : Worker} (hworker : state.workers[place]? = some worker)
    (hended : worker.isEnded = false) :
    ∃ next, stepWorker setup consumer state place = some next := by
  have hstep {next : ParallelState σ}
      (hturn : WorkerTurn setup (consumer.signals state.consumer) state place worker next) :
      ∃ next, stepWorker setup consumer state place = some next :=
    ⟨next, stepWorker_eq_some_iff.mpr ⟨worker, hworker, hturn⟩⟩
  -- a worker that holds a record gives up, or puts it into the queue
  have hholding {item : WorkItem} {items : List ScanItem} (hholds : worker.Holds item items) :
      ∃ next, stepWorker setup consumer state place = some next := by
    cases hopen : state.isOpen with
    | false => exact hstep (.givesUp hholds hopen)
    | true => exact hstep (.enqueues hholds hopen (hfree.resolve_left (by simp [hopen])))
  cases hphase : worker.phase with
  | starting =>
      cases hscan : setup.evaluator.store.scanCluster worker.cluster setup.scan.direction
          setup.scan.range with
      | ok items => exact hstep (.opens hphase hscan)
      | error failure => exact hstep (.fails hphase hscan)
  | scanning items =>
      cases items with
      | nil => exact hstep (.ends hphase)
      | cons item items =>
          cases hrunning : state.running with
          | true => exact hstep (.goesOn hphase hrunning)
          | false => exact hstep (.stops hphase hrunning)
  | reading item items => exact hstep (.reads hphase)
  | offering item items => exact hholding (.inl hphase)
  | blocked item items => exact hholding (.inr hphase)
  | ended failure => simp [Worker.isEnded, hphase] at hended

/-- A consumer that is not idle (`hbusy`) can take a step. -/
theorem exists_stepConsumer (hbusy : state.isIdle = false) :
    ∃ next, stepConsumer consumer state = some next := by
  have hstep {next : ParallelState σ} (hturn : ConsumerTurn consumer state next) :
      ∃ next, stepConsumer consumer state = some next :=
    ⟨next, stepConsumer_eq_some_iff.mpr hturn⟩
  unfold ParallelState.isIdle at hbusy
  cases hphase : state.phase with
  | receiving =>
      cases hqueue : state.queue with
      | nil =>
          rw [hphase, hqueue] at hbusy
          cases hbusy
      | cons item queue => exact hstep (.takes hphase hqueue)
  | taken item =>
      cases hrunning : state.running with
      | true => exact hstep (.goesOn hphase hrunning)
      | false => exact hstep (.stops hphase hrunning)
  | handling item =>
      rcases hconsume : consumer.consume item state.consumer with ⟨failure | _ | _, after⟩
      · exact hstep (.fails hphase hconsume)
      · exact hstep (.refuses hphase hconsume)
      · exact hstep (.accepts hphase hconsume)
  | closing failure => exact hstep (.closes hphase)
  | closed failure =>
      rw [hphase] at hbusy
      cases hbusy

/-- `firstWorkerStep` finds a step while some worker has not ended, unless the consumer has to make
room first. -/
theorem exists_firstWorkerStep
    (hfree : state.isOpen = false ∨ state.queue.length < setup.capacity)
    (hended : state.workers.all Worker.isEnded = false) :
    ∃ next, firstWorkerStep setup consumer state = some next := by
  obtain ⟨worker, hworker, hrunning⟩ : ∃ worker ∈ state.workers, worker.isEnded = false := by
    simpa using hended
  obtain ⟨place, hplace⟩ := List.mem_iff_getElem?.mp hworker
  obtain ⟨next, hnext⟩ :=
    @exists_stepWorker _ setup consumer state hfree place worker hplace hrunning
  refine Option.isSome_iff_exists.mp (List.findSome?_isSome_iff.mpr ⟨place, ?_, by rw [hnext]; rfl⟩)
  exact List.mem_range.mpr (List.getElem?_eq_some_iff.mp hplace).1

/-- A scan that is not over goes on: `nextStep` is `none` only in a state that `isComplete`. -/
theorem exists_nextStep (hcapacity : 0 < setup.capacity) (hincomplete : state.isComplete = false) :
    ∃ next, nextStep setup consumer state = some next := by
  unfold nextStep
  cases hidle : state.isIdle with
  | false =>
      obtain ⟨next, hnext⟩ := @exists_stepConsumer _ consumer _ hidle
      rw [if_neg (by simp), hnext]
      exact ⟨next, rfl⟩
  | true =>
      rw [if_pos rfl]
      cases hended : state.workers.all Worker.isEnded with
      | true =>
          -- all workers have ended, so the consumer is what is left, and it has to call for a stop
          have hopen : state.isOpen = true := by
            simpa [ParallelState.isComplete, hended] using hincomplete
          obtain ⟨hphase, hqueue⟩ : state.phase = .receiving ∧ state.queue = [] := by
            unfold ParallelState.isIdle at hidle
            unfold ParallelState.isOpen at hopen
            cases hphase : state.phase with
            | receiving =>
                rw [hphase] at hidle
                exact ⟨rfl, List.isEmpty_iff.mp hidle⟩
            | taken item | handling item | closing failure => simp [hphase] at hidle
            | closed failure => simp [hphase] at hopen
          rw [stepConsumer_eq_some_iff.mpr (.ends hphase hqueue hended)]
          cases firstWorkerStep setup consumer state with
          | some next => exact ⟨next, rfl⟩
          | none => exact ⟨_, rfl⟩
      | false =>
          -- an idle consumer has closed, or has taken all there is in the queue
          have hfree : state.isOpen = false ∨ state.queue.length < setup.capacity := by
            unfold ParallelState.isIdle at hidle
            unfold ParallelState.isOpen
            cases hphase : state.phase with
            | receiving =>
                rw [hphase] at hidle
                right
                rwa [List.isEmpty_iff.mp hidle]
            | taken item | handling item | closing failure => simp [hphase] at hidle
            | closed failure => exact .inl rfl
          obtain ⟨next, hnext⟩ := @exists_firstWorkerStep _ setup consumer _ hfree hended
          rw [hnext]
          exact ⟨next, rfl⟩

/-! ## Runs of steps

`ParallelScan.drive` takes one step after the other, with a bound on their number. With
`weight_step` and `exists_nextStep` the bound is never what ends it. -/

/-- What every `Step` keeps, `drive` keeps. The induction is on the steps. -/
theorem drive_induction {keeps : ParallelState σ → Prop}
    (hstep : ∀ state next, keeps state → Step setup consumer state next → keeps next)
    (steps : Nat) (h : keeps state) : keeps (drive setup consumer steps state) := by
  induction steps generalizing state with
  | zero => exact h
  | succ steps ih =>
      unfold drive
      split
      next next hnext => exact ih (hstep state next h (step_of_nextStep hnext))
      · exact h

/-- As many steps as there is `weight` left are enough to end the scan, as `weight_step` makes it
fall and no step is missing before the end. -/
theorem drive_isComplete (hcapacity : 0 < setup.capacity) {steps : Nat}
    (hsteps : weight setup state ≤ steps) :
    (drive setup consumer steps state).isComplete = true := by
  have hcomplete {last : ParallelState σ} (hlast : nextStep setup consumer last = none) :
      last.isComplete = true := by
    by_contra hincomplete
    obtain ⟨next, hnext⟩ :=
      @exists_nextStep _ _ consumer _ hcapacity (Bool.eq_false_iff.mpr hincomplete)
    rw [hlast] at hnext
    cases hnext
  induction steps generalizing state with
  | zero =>
      -- no work is left for a step
      unfold drive
      refine hcomplete (Option.eq_none_iff_forall_not_mem.mpr fun next hnext => ?_)
      have hless := weight_step (step_of_nextStep hnext)
      omega
  | succ steps ih =>
      unfold drive
      split
      next next hnext =>
        have hless := weight_step (step_of_nextStep hnext)
        exact ih (by omega)
      next hnone => exact hcomplete hnone

/-- `itemsOf` has an item for each record of a cluster at most, and one for a failure. -/
theorem length_itemsOf_le (id : ClusterId) : (setup.itemsOf id).length ≤
    (((setup.evaluator.store.cluster? id).map (·.records)).getD []).length + 1 := by
  unfold ParallelSetup.itemsOf Store.scanCluster
  cases setup.evaluator.store.cluster? id with
  | none => simp [Except.toOption]
  | some c =>
      have hfilter := List.length_filter_le (fun r : Record => setup.scan.range.contains r.rid)
        c.records
      cases setup.scan.direction <;> dsimp only <;> split <;>
        simp only [Except.toOption, Option.getD_some, Option.map_some, List.length_append,
          List.length_map, List.length_take, List.length_singleton, List.length_reverse] <;>
        omega

/-- The `weight` of a whole scan is within `stepBound`, the bound for its steps. -/
theorem weight_start_le (setup : ParallelSetup) (context : Context) (initial : σ) :
    weight setup (start setup context initial) ≤ stepBound setup := by
  unfold weight stepBound start
  dsimp only
  rw [List.length_nil, Nat.mul_zero, Nat.zero_add, List.map_map]
  refine Nat.add_le_add_right ?_ 2
  -- on the clusters: the scan of each is bounded by its records
  induction setup.scan.clusters with
  | nil => simp
  | cons id ids ih =>
      have hlength := @length_itemsOf_le setup id
      simp only [List.map_cons, List.sum_cons, List.flatMap_cons, List.length_append,
        List.length_cons, Function.comp_apply, Worker.weight] at ih ⊢
      omega

end

end ParallelScan

end RecordQuery
