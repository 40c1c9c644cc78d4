import RecordQuery.Proofs.ParallelProgress
import RecordQuery.Proofs.Scans
import RecordQuery.Proofs.SerialRun

/-!
# `RecordQuery.Proofs.ParallelRun`: what a parallel scan delivers

Where nothing ends a parallel scan early, no interleaving of its workers and its consumer loses a
record. `Receives` is the invariant: the records that the consumer has used, the one in its hand,
those in the queue and those that the workers still have to hand over (`Worker.remaining`) are
together the qualifying records of the clusters. Nothing is said of their order, as the queue takes
the records of several workers as they come; what holds of the order within one cluster is in
`RecordQuery.Proofs.Interleavings`.

`Consumer.Takes` and `Worker.Runs` are about a set of signals, `raised`: the tokens that may be
raised at some time during the scan. For the run of a query by itself it holds only those raised
before the scan. For an execution beside others it holds all signals, and the context may have no
token then.

The theorems:

* `step_receives`: a step of any actor keeps `Receives`.
* `Receives.completes`: a scan that is over has used all qualifying records, and nobody has failed.
* `runParallel_drains`, `runQuery_drains_parallel`: a run with a worker per cluster delivers every
  qualifying record of its clusters.
-/

set_option autoImplicit false

namespace RecordQuery

open Steps

/-! ## Records on their way

A qualifying record is with its worker, in the queue, in the hand of the consumer, or used. These
definitions say for each of the places which records are there. -/

/-- The qualifying records among scanned items, with their LET bindings, as `Evaluator.item?` makes
them. -/
def Evaluator.qualifying (evaluator : Evaluator) (items : List ScanItem) : List WorkItem :=
  (Store.scannedRecords items).filterMap evaluator.item?

/-- Every scanned item is a record, and the condition can be evaluated on it: `qualify` does not
fail. -/
def Evaluator.Reads (evaluator : Evaluator) (items : List ScanItem) : Prop :=
  ∀ item ∈ items, ∃ r lets, item = .ok r ∧ evaluator.qualify r = .ok lets

/-- The record that the consumer has taken off the queue and has not used yet, in the phases `taken`
and `handling`. -/
def ConsumerPhase.inHand : ConsumerPhase → List WorkItem
  | .taken item | .handling item => [item]
  | .receiving | .closing _ | .closed _ => []

/-- The records between the workers and the consumer: the one `inHand`, and those in `queue`. -/
def ParallelState.between {σ : Type} (state : ParallelState σ) : List WorkItem :=
  state.phase.inHand ++ state.queue

namespace Worker

/-- The qualifying records that a worker still has to hand over, by its phase: those among the items
it has not read, and the one that it holds to offer. -/
def remaining (setup : ParallelSetup) (worker : Worker) : List WorkItem :=
  match worker.phase with
  | .starting => setup.evaluator.qualifying (setup.itemsOf worker.cluster)
  | .scanning items => setup.evaluator.qualifying items
  | .reading item items => setup.evaluator.qualifying (item :: items)
  | .offering item items | .blocked item items => item :: setup.evaluator.qualifying items
  | .ended _ => []

/-- Nothing ends the worker early, whichever of the signals in `raised` it sees. -/
structure Runs (setup : ParallelSetup) (raised : Signals → Prop) (worker : Worker) : Prop where
  /-- There is no deadline. -/
  deadline : worker.context.deadline = none
  /-- No deadline has ended the worker. -/
  timedOut : worker.context.timedOut = false
  /-- The token is not among those that may be raised. -/
  cancelled : ∀ signals, raised signals → worker.context.isCancelled signals = false
  /-- The items left do not fail, and no failure has ended the worker. -/
  phase : match worker.phase with
    | .starting => (∃ items, setup.evaluator.store.scanCluster worker.cluster setup.scan.direction
        setup.scan.range = .ok items) ∧ setup.evaluator.Reads (setup.itemsOf worker.cluster)
    | .scanning items | .offering _ items | .blocked _ items => setup.evaluator.Reads items
    | .reading item items => setup.evaluator.Reads (item :: items)
    | .ended failure => failure = none

/-- A worker that has ended, `isEnded`, has no record left. -/
theorem remaining_of_isEnded {setup : ParallelSetup} {worker : Worker}
    (h : worker.isEnded = true) : worker.remaining setup = [] := by
  unfold isEnded at h
  unfold remaining
  cases hphase : worker.phase with
  | ended failure => rfl
  | starting | scanning items | reading item items | offering item items | blocked item items =>
      rw [hphase] at h
      cases h

end Worker

/-- The consumer uses every record and wants another one, and the signals stay among those in
`raised`. `good` says what it has done with the records used so far. -/
def Consumer.Takes {σ : Type} (consumer : Consumer σ) (raised : Signals → Prop)
    (good : List WorkItem → σ → Prop) : Prop :=
  ∀ taken before item, good taken before → raised (consumer.signals before) →
    ∃ after, consumer.consume item before = (.ok true, after) ∧ good (taken ++ [item]) after ∧
      raised (consumer.signals after)

namespace ParallelScan

/-! ## The invariant

`Receives` adds the places up: together they have all qualifying records of the scan. It holds of
every state of a scan that nothing ends early, whatever the order of its steps. -/

section

variable {σ : Type} {setup : ParallelSetup} {consumer : Consumer σ} {raised : Signals → Prop}
  {all : List WorkItem} {good : List WorkItem → σ → Prop} {state next : ParallelState σ}

/-- Nobody has raised `stop`, or the consumer has raised it at the end of all records: the workers
have ended, and the queue is empty. -/
def Uninterrupted (state : ParallelState σ) : Prop :=
  state.running = true ∧ state.phase.isTaking = true ∨
    (state.phase = .closing none ∨ state.phase = .closed none) ∧ state.queue = [] ∧
      state.workers.all Worker.isEnded = true

/-- While some worker has not ended, `hlive`, nobody has called for a stop. -/
theorem Uninterrupted.of_live (h : Uninterrupted state) {worker : Worker}
    (hworker : worker ∈ state.workers) (hlive : worker.isEnded = false) :
    state.running = true ∧ state.phase.isTaking = true := by
  refine h.resolve_right fun hended => ?_
  rw [List.all_eq_true.mp hended.2.2 worker hworker] at hlive
  cases hlive

/-- A scan that `isComplete` and `Uninterrupted` has ended at the end of all records. -/
theorem Uninterrupted.of_isComplete (h : Uninterrupted state) (hcomplete : state.isComplete = true) :
    state.phase = .closed none ∧ state.queue = [] ∧
      ∀ worker ∈ state.workers, worker.isEnded = true := by
  simp only [ParallelState.isComplete, Bool.and_eq_true, Bool.not_eq_true'] at hcomplete
  obtain ⟨hclosed, hended⟩ := hcomplete
  rcases h with ⟨-, htaking⟩ | ⟨hphase, hqueue, -⟩
  · rw [isOpen_of_isTaking htaking] at hclosed
    cases hclosed
  · refine ⟨hphase.resolve_left fun hphase => ?_, hqueue, List.all_eq_true.mp hended⟩
    simp [ParallelState.isOpen, hphase] at hclosed

/-- The consumer uses records, and those used, those on their way and those that workers still have
to hand over are all the qualifying ones, `all`. The consumer is in a state that is `good` for those
used, and raises no tokens but `raised` ones. This is what every step preserves. -/
structure Receives (setup : ParallelSetup) (consumer : Consumer σ) (raised : Signals → Prop)
    (good : List WorkItem → σ → Prop) (all : List WorkItem) (state : ParallelState σ) : Prop where
  /-- Nobody calls for a stop before the end of all records. -/
  going : Uninterrupted state
  /-- Nothing ends a worker early. -/
  workers : ∀ worker ∈ state.workers, worker.Runs setup raised
  /-- The tokens raised are among those that may be. -/
  signals : raised (consumer.signals state.consumer)
  /-- No record is lost. -/
  taken : ∃ taken, good taken state.consumer ∧
    (taken ++ state.between ++ state.workers.flatMap (Worker.remaining setup)).Perm all

/-- The scan is over, and the consumer has used all qualifying records. This is what `Receives`
comes to at the end. -/
structure Completes (setup : ParallelSetup) (consumer : Consumer σ) (raised : Signals → Prop)
    (good : List WorkItem → σ → Prop) (all : List WorkItem) (state : ParallelState σ) : Prop where
  /-- The consumer has closed without a failure. -/
  phase : state.phase = .closed none
  /-- No failure has ended a worker. -/
  workers : ∀ worker ∈ state.workers, worker.Runs setup raised
  /-- The tokens raised are among those that may be. -/
  signals : raised (consumer.signals state.consumer)
  /-- All records are used. -/
  taken : ∃ taken, good taken state.consumer ∧ taken.Perm all

/-- At the end of a scan, `isComplete`, nothing is on its way, so all records are used. -/
theorem Receives.completes (h : Receives setup consumer raised good all state)
    (hcomplete : state.isComplete = true) : Completes setup consumer raised good all state := by
  obtain ⟨hphase, hqueue, hended⟩ := h.going.of_isComplete hcomplete
  obtain ⟨taken, hgood, hperm⟩ := h.taken
  have hnone : state.workers.flatMap (Worker.remaining setup) = [] :=
    List.flatMap_eq_nil_iff.mpr fun worker hworker =>
      Worker.remaining_of_isEnded (hended worker hworker)
  refine ⟨hphase, h.workers, h.signals, taken, hgood, ?_⟩
  simpa [ParallelState.between, hphase, hqueue, hnone, ConsumerPhase.inHand] using hperm

/-! ## Steps of workers

A step of a worker moves a record from the worker to the queue at most, so it is enough to look at
these two places. -/

/-- A step that changes one worker, and perhaps the queue, loses no record when it loses none of the
worker and the queue together, `hrecords`. -/
theorem Receives.of_worker {worker after : Worker} {place : Nat}
    (h : Receives setup consumer raised good all state)
    (hworker : state.workers[place]? = some worker) (hlive : worker.isEnded = false)
    (hworkers : next.workers = (state.setWorker place after).workers)
    (hphase : next.phase = state.phase) (hrunning : next.running = state.running)
    (hconsumer : next.consumer = state.consumer) (hruns : after.Runs setup raised)
    (hremaining : (next.queue ++ after.remaining setup).Perm
      (state.queue ++ worker.remaining setup)) :
    Receives setup consumer raised good all next := by
  obtain ⟨before, behind, hsplit, hset⟩ := setWorker_split hworker
  have hgoing := h.going.of_live (List.mem_of_getElem? hworker) hlive
  rw [hset] at hworkers
  refine ⟨.inl ⟨hrunning.trans hgoing.1, hphase ▸ hgoing.2⟩, ?workers, hconsumer ▸ h.signals,
    ?taken⟩
  case workers =>
    intro other hother
    rw [hworkers] at hother
    rcases List.mem_append.mp hother with hother | hother
    · exact h.workers other (hsplit ▸ List.mem_append_left _ hother)
    · rcases List.mem_cons.mp hother with rfl | hother
      · exact hruns
      · exact h.workers other
          (hsplit ▸ List.mem_append_right _ (List.mem_cons_of_mem _ hother))
  case taken =>
    obtain ⟨taken, hgood, hperm⟩ := h.taken
    refine ⟨taken, hconsumer ▸ hgood, .trans ?_ hperm⟩
    unfold ParallelState.between
    rw [hworkers, hsplit, hphase]
    simp only [List.flatMap_append, List.flatMap_cons, List.append_assoc]
    -- up to order, what the worker holds may stand right behind the queue
    have hmove (queue remaining : List WorkItem) (b c : List WorkItem) :
        (queue ++ (b ++ (remaining ++ c))).Perm (queue ++ remaining ++ (b ++ c)) := by
      rw [List.append_assoc]
      exact (List.perm_append_comm_assoc b remaining c).append_left queue
    refine (List.Perm.append_left _ ?_).append_left taken
    exact (hmove ..).trans ((hremaining.append_right _).trans (hmove ..).symm)

/-- `readItem` goes on with a record that it reads: it is to be offered if it qualifies, and is left
behind if it does not. -/
theorem Receives.readItem {place : Nat} {worker : Worker} {item : ScanItem} {items : List ScanItem}
    (h : Receives setup consumer raised good all state)
    (hworker : state.workers[place]? = some worker) (hnow : worker.phase = .reading item items) :
    Receives setup consumer raised good all
      (ParallelScan.readItem setup (consumer.signals state.consumer) state place worker item
        items) := by
  have hlive : worker.isEnded = false := by simp [Worker.isEnded, hnow]
  have hruns := h.workers worker (List.mem_of_getElem? hworker)
  have hreads := hruns.phase
  rw [hnow] at hreads
  obtain ⟨r, lets, rfl, hqualify⟩ := hreads item List.mem_cons_self
  have hlater : setup.evaluator.Reads items := fun item hitem =>
    hreads item (List.mem_cons_of_mem _ hitem)
  -- nothing stops the worker: there is no deadline and no token
  have hcheck : worker.context.check setup.clock (consumer.signals state.consumer) =
      (.ok true, worker.context) := by
    simp [Context.check, hruns.cancelled _ h.signals, hruns.timedOut, hruns.deadline]
  unfold ParallelScan.readItem
  rw [hcheck]
  dsimp only
  rw [outcome_evaluate, hqualify]
  cases lets with
  | none =>
      refine h.of_worker hworker hlive rfl rfl rfl rfl
        ⟨hruns.deadline, hruns.timedOut, hruns.cancelled, hlater⟩ ?_
      have hitem : setup.evaluator.item? r = none := by simp [Evaluator.item?, hqualify]
      simp [Worker.remaining, hnow, Evaluator.qualifying, Store.scannedRecords, Except.toOption,
        hitem, ParallelState.setWorker]
  | some lets =>
      refine h.of_worker hworker hlive rfl rfl rfl rfl
        ⟨hruns.deadline, hruns.timedOut, hruns.cancelled, hlater⟩ ?_
      have hitem : setup.evaluator.item? r = some ⟨r, lets⟩ := by
        simp [Evaluator.item?, hqualify]
      simp [Worker.remaining, hnow, Evaluator.qualifying, Store.scannedRecords, Except.toOption,
        hitem, ParallelState.setWorker]

/-- A step of a worker loses no record. The cases are those of `WorkerTurn`. The turns that would
lose one are those of a worker that fails or that somebody has stopped. -/
theorem Receives.stepWorker {place : Nat} (h : Receives setup consumer raised good all state)
    (hstep : ParallelScan.stepWorker setup consumer state place = some next) :
    Receives setup consumer raised good all next := by
  obtain ⟨worker, hworker, hturn⟩ := stepWorker_eq_some_iff.mp hstep
  have hlive := hturn.live
  have hgoing := h.going.of_live (List.mem_of_getElem? hworker) hlive
  have hruns := h.workers worker (List.mem_of_getElem? hworker)
  have hphase := hruns.phase
  cases hturn with
  | @opens items hnow hscan =>
      rw [hnow] at hphase
      have hall : setup.itemsOf worker.cluster = items := by
        simp [ParallelSetup.itemsOf, hscan, Except.toOption]
      have hreads := hphase.2
      rw [hall] at hreads
      refine h.of_worker hworker hlive rfl rfl rfl rfl
        ⟨hruns.deadline, hruns.timedOut, hruns.cancelled, hreads⟩ ?_
      simp [Worker.remaining, hnow, hall, ParallelState.setWorker]
  | fails hnow hscan =>
      -- the cluster of a worker that nothing ends early can be opened
      rw [hnow] at hphase
      obtain ⟨⟨items, hitems⟩, -⟩ := hphase
      rw [hscan] at hitems
      cases hitems
  | ends hnow =>
      refine h.of_worker hworker hlive rfl rfl rfl rfl
        ⟨hruns.deadline, hruns.timedOut, hruns.cancelled, rfl⟩ ?_
      simp [Worker.remaining, hnow, Evaluator.qualifying, Store.scannedRecords,
        ParallelState.setWorker]
  | goesOn hnow =>
      rw [hnow] at hphase
      refine h.of_worker hworker hlive rfl rfl rfl rfl
        ⟨hruns.deadline, hruns.timedOut, hruns.cancelled, hphase⟩ ?_
      simp [Worker.remaining, hnow, ParallelState.setWorker]
  | stops hnow hrunning =>
      rw [hgoing.1] at hrunning
      cases hrunning
  | reads hnow => exact h.readItem hworker hnow
  | givesUp hholds hclosed =>
      rw [isOpen_of_isTaking hgoing.2] at hclosed
      cases hclosed
  | @enqueues item items hholds =>
      have hreads : setup.evaluator.Reads items := by
        rcases hholds with hnow | hnow <;> rwa [hnow] at hphase
      have hremaining : worker.remaining setup = item :: setup.evaluator.qualifying items := by
        rcases hholds with hnow | hnow <;> simp [Worker.remaining, hnow]
      refine h.of_worker hworker hlive rfl rfl rfl rfl
        ⟨hruns.deadline, hruns.timedOut, hruns.cancelled, hreads⟩ ?_
      rw [hremaining]
      simp [Worker.remaining, enqueue]
  | blocks hnow =>
      rw [hnow] at hphase
      refine h.of_worker hworker hlive rfl rfl rfl rfl
        ⟨hruns.deadline, hruns.timedOut, hruns.cancelled, hphase⟩ ?_
      simp [Worker.remaining, hnow, block, ParallelState.setWorker]

/-! ## Steps of the consumer

The consumer moves a record from the queue to its hand and then to the records used. When the last
worker has ended and nothing is left, it closes, and the scan `Completes`. -/

/-- A step of the consumer, which `Takes` every record, loses none: a record goes from the queue
into its hand, and from there to those used. -/
theorem Receives.stepConsumer (hconsume : consumer.Takes raised good)
    (h : Receives setup consumer raised good all state)
    (hstep : ParallelScan.stepConsumer consumer state = some next) :
    Receives setup consumer raised good all next := by
  obtain ⟨taken, hgood, hperm⟩ := h.taken
  have hturn := stepConsumer_eq_some_iff.mp hstep
  have hrunning (htaking : state.phase.isTaking = true) : state.running = true := by
    rcases h.going with ⟨hrunning, -⟩ | ⟨hphase | hphase, -⟩
    · exact hrunning
    · simp [hphase, ConsumerPhase.isTaking] at htaking
    · simp [hphase, ConsumerPhase.isTaking] at htaking
  unfold ParallelState.between at hperm
  cases hturn with
  | ends hnow hqueue hended =>
      refine ⟨.inr ⟨.inl rfl, hqueue, hended⟩, h.workers, h.signals, taken, hgood, ?_⟩
      rwa [hnow] at hperm
  | takes hnow hqueue =>
      refine ⟨.inl ⟨hrunning (by simp [hnow, ConsumerPhase.isTaking]), rfl⟩, h.workers, h.signals,
        taken, hgood, ?_⟩
      rwa [hnow, hqueue] at hperm
  | goesOn hnow hgo =>
      refine ⟨.inl ⟨hgo, rfl⟩, h.workers, h.signals, taken, hgood, ?_⟩
      rwa [hnow] at hperm
  | stops hnow hstopped =>
      rw [hrunning (by simp [hnow, ConsumerPhase.isTaking])] at hstopped
      cases hstopped
  | @accepts item after hnow htook =>
      obtain ⟨_, hafter, hgoodAfter, hsignals⟩ := hconsume taken _ item hgood h.signals
      rw [htook] at hafter
      cases hafter
      refine ⟨.inl ⟨hrunning (by simp [hnow, ConsumerPhase.isTaking]), rfl⟩, h.workers, hsignals,
        taken ++ [item], hgoodAfter, ?_⟩
      rw [hnow] at hperm
      simpa [ParallelState.between, ConsumerPhase.inHand] using hperm
  | @refuses item _ hnow htook | @fails item _ _ hnow htook =>
      obtain ⟨_, hafter, -⟩ := hconsume taken _ item hgood h.signals
      rw [htook] at hafter
      cases hafter
  | closes hnow =>
      -- a consumer that closes has called for a stop, which it does at the end of all records
      rcases h.going with ⟨-, htaking⟩ | ⟨hphase, hqueue, hended⟩
      · simp [hnow, ConsumerPhase.isTaking] at htaking
      · rcases hphase with hphase | hphase
        · cases hnow.symm.trans hphase
          refine ⟨.inr ⟨.inr rfl, rfl, hended⟩, h.workers, h.signals, taken, hgood, ?_⟩
          rwa [hnow, hqueue] at hperm
        · cases hnow.symm.trans hphase

/-- A step of any actor loses no record, as `Receives` is preserved by those of the workers and of
the consumer. -/
theorem step_receives (hconsume : consumer.Takes raised good)
    (h : Receives setup consumer raised good all state) (hstep : Step setup consumer state next) :
    Receives setup consumer raised good all next := by
  obtain ⟨actor, hstep⟩ := hstep
  cases actor with
  | worker place => exact h.stepWorker hstep
  | consumer => exact h.stepConsumer hconsume hstep

/-- A parallel scan starts with all records still to be handed over. No scan of a cluster fails, and
no record does, `hscans`. -/
theorem Receives.start {context : Context} {initial : σ} (hgood : good [] initial)
    (hsignals : raised (consumer.signals initial)) (hdeadline : context.deadline = none)
    (hcancelled : ∀ signals, raised signals → context.isCancelled signals = false)
    (hscans : ∀ id ∈ setup.scan.clusters, (∃ items, setup.evaluator.store.scanCluster id
      setup.scan.direction setup.scan.range = .ok items) ∧
      setup.evaluator.Reads (setup.itemsOf id)) :
    Receives setup consumer raised good
      (setup.scan.clusters.flatMap fun id => setup.evaluator.qualifying (setup.itemsOf id))
      (ParallelScan.start setup context initial) where
  going := .inl ⟨rfl, rfl⟩
  workers worker hworker := by
    obtain ⟨id, hid, rfl⟩ := List.mem_map.mp hworker
    exact ⟨hdeadline, rfl, hcancelled, hscans id hid⟩
  signals := hsignals
  taken := by
    refine ⟨[], hgood, .of_eq ?_⟩
    simp [ParallelScan.start, ParallelState.between, ConsumerPhase.inHand, List.flatMap_map, Worker.remaining]

end

end ParallelScan

/-! ## Runs with a worker per cluster

The consumer of a run is the pipeline with its sink. `conclude` folds the workers back into the run
and finishes the pipeline, so a run delivers what the pipeline makes of the records used. -/

/-- What stays the same during the scan of a run with a worker per cluster, as a `ParallelSetup`. -/
def Env.parallelSetup (env : Env) (evaluator : Evaluator) (scan : ScanPlan) : ParallelSetup :=
  ⟨evaluator, scan, env.clock, max env.options.queueCapacity 1⟩

/-- The end of a parallel run: the workers are folded back, and the pipeline is ended unless
somebody has failed, `failure?`. -/
def ParallelScan.conclude (env : Env) (setup : PipelineSetup) (scan : ScanPlan)
    (done : ParallelState (Pipeline × Run)) : Exec Nat := do
  set (done.workers.foldl Run.joinWorker (done.consumer.2.modifyStats fun stats =>
    { stats with parallelTasks := stats.parallelTasks + scan.clusters.length }))
  Exec.time .scan
  match failure? done with
  | some failure => throw failure
  | none => done.consumer.1.finish env setup

section

variable {env : Env} {setup : PipelineSetup} {evaluator : Evaluator} {raised : Signals → Prop}

/-- What the consumer of a run has done with some records, `taken`: the pipeline has taken them, and
nothing has ended the run early. -/
def Consumed (env : Env) (setup : PipelineSetup) (evaluator : Evaluator) (raised : Signals → Prop)
    (taken : List WorkItem) (state : Pipeline × Run) : Prop :=
  Took env setup evaluator taken state.1 state.2.rows ∧ state.2.IdleUnder raised env

/-- The consumer of a run that nothing ends early hands every record to the pipeline, and stays in a
state that is `Consumed`. -/
theorem consumer_takes (hexpand : setup.query.expand = none)
    (hlimit : setup.query.limitCount? = none) :
    (Pipeline.consumer env setup evaluator).Takes raised
      (Consumed env setup evaluator raised) := by
  rintro taken ⟨pipeline, run⟩ item ⟨htook, hunder⟩ hsignals
  have hidle : run.Idle env := hunder run.signals hsignals
  obtain ⟨more, next, after, haccept, haccepted⟩ :=
    @accept_run env setup evaluator pipeline item run
  obtain ⟨hcontinues, hmore⟩ := haccepted.continues hidle
  obtain rfl := hmore hlimit
  refine ⟨(next, after), ?_, ⟨haccepted.took hexpand htook, hunder.continues hcontinues⟩, ?_⟩
  · unfold Pipeline.consumer
    dsimp only
    rw [run_bind, check_idle hidle]
    dsimp only at haccept ⊢
    rw [if_pos (show true = true from rfl), haccept]
  · show raised after.signals
    rw [hcontinues.signals]
    exact hsignals

/-- Folding workers back changes only what is counted, `Run.Keeps`, where no deadline has ended
one. -/
theorem joinWorkers_keeps {workers : List Worker} (run : Run)
    (hworkers : ∀ worker ∈ workers, worker.context.timedOut = false) :
    run.Keeps (workers.foldl Run.joinWorker run) := by
  induction workers generalizing run with
  | nil => exact .refl run
  | cons worker workers ih =>
      obtain ⟨htimedOut, hworkers⟩ := List.forall_mem_cons.mp hworkers
      have hfirst : run.Keeps (run.joinWorker worker) :=
        ⟨rfl, rfl, rfl, rfl, rfl, by simp [Run.joinWorker, Context.join, htimedOut]⟩
      exact hfirst.trans (ih (run.joinWorker worker) hworkers)

/-- A scan that `Completes` has not failed: neither has any worker, nor the consumer. -/
theorem failure?_of_completes {σ : Type} {parallel : ParallelSetup} {consumer : Consumer σ}
    {good : List WorkItem → σ → Prop} {all : List WorkItem} {state : ParallelState σ}
    (h : ParallelScan.Completes parallel consumer raised good all state) :
    ParallelScan.failure? state = none := by
  have hworkers : state.workers.findSome? Worker.failure? = none := by
    refine List.findSome?_eq_none_iff.mpr fun worker hworker => ?_
    have hphase := (h.workers worker hworker).phase
    unfold Worker.failure?
    split
    next failure hnow =>
      rw [hnow] at hphase
      exact hphase
    · rfl
  unfold ParallelScan.failure?
  rw [h.phase, hworkers]
  rfl

/-- The qualifying records of the clusters of a scan, cluster by cluster: those of
`Evaluator.qualifying` for each. -/
def Evaluator.qualifyingIn (evaluator : Evaluator) (scan : ScanPlan) : List WorkItem :=
  scan.clusters.flatMap fun id => evaluator.qualifying
    ((evaluator.store.scanCluster id scan.direction scan.range).toOption.getD [])

/-- Before its first step the scan of a run that nothing ends early, and whose records do not fail,
has all qualifying records to hand over, those of `qualifyingIn`. -/
theorem receives_start {scan : ScanPlan} {run : Run} (hunder : run.IdleUnder raised env)
    (hsignals : raised run.signals) (hrows : run.rows = [])
    (hscans : ∀ id ∈ scan.clusters, ∃ items,
      evaluator.store.scanCluster id scan.direction scan.range = .ok items ∧
        evaluator.Reads items) :
    ParallelScan.Receives (env.parallelSetup evaluator scan) (Pipeline.consumer env setup evaluator)
      raised (Consumed env setup evaluator raised) (evaluator.qualifyingIn scan)
      (ParallelScan.start (env.parallelSetup evaluator scan) run.context (.start, run)) := by
  have hgood : Consumed env setup evaluator raised [] (.start, run) := by
    refine ⟨?_, hunder⟩
    show Took env setup evaluator [] .start run.rows
    rw [hrows]
    exact took_start
  refine ParallelScan.Receives.start hgood hsignals (hunder _ hsignals).deadline
    (fun signals hraised => (hunder signals hraised).cancelled) fun id hid => ?_
  obtain ⟨items, hitems, hreads⟩ := hscans id hid
  refine ⟨⟨items, hitems⟩, ?_⟩
  have hall : (env.parallelSetup evaluator scan).itemsOf id = items := by
    simp [ParallelSetup.itemsOf, Env.parallelSetup, hitems, Except.toOption]
  rwa [hall]

/-- The end of a parallel run whose scan has used all qualifying records delivers their rows, in the
order in which they came or sorted: `chosen`. -/
theorem conclude_drains {scan : ScanPlan} {parallel : ParallelSetup} {all : List WorkItem}
    {done : ParallelState (Pipeline × Run)} (hwhole : setup.query.Whole)
    (h : ParallelScan.Completes parallel (Pipeline.consumer env setup evaluator) raised
      (Consumed env setup evaluator raised) all done) (run : Run) :
    ∃ count after, ∃ chosen : List WorkItem,
      (ParallelScan.conclude env setup scan done).run.run run = (.ok count, after) ∧
      after.rows = chosen.map (setup.row evaluator) ∧ chosen.Perm all := by
  obtain ⟨taken, ⟨htook, hunder⟩, htaken⟩ := h.taken
  have hidle : done.consumer.2.Idle env := hunder _ h.signals
  have hcounted : done.consumer.2.Keeps (done.consumer.2.modifyStats fun stats =>
      { stats with parallelTasks := stats.parallelTasks + scan.clusters.length }) :=
    .modifyStats _ _
  -- folding the workers back and noting the time keep the rows
  have hjoined := hcounted.trans (joinWorkers_keeps _ fun worker hworker =>
    (h.workers worker hworker).timedOut)
  obtain ⟨timed, htimed, hrunTimed⟩ := (Exec.gives_time .scan).step
    (done.workers.foldl Run.joinWorker (done.consumer.2.modifyStats fun stats =>
      { stats with parallelTasks := stats.parallelTasks + scan.clusters.length }))
  have hkeeps := hjoined.trans htimed
  rw [← hkeeps.rows] at htook
  obtain ⟨count, last, hfinish, -, hdelivered⟩ := finish_delivered hwhole.unwind htook
  obtain ⟨chosen, hchosen, hperm⟩ :=
    hdelivered (hidle.keeps hkeeps) hwhole.limit hwhole.skip hwhole.grouping
  refine ⟨count, last, chosen, ?_, hchosen, hperm.trans htaken⟩
  unfold ParallelScan.conclude
  rw [run_bind, run_set]
  dsimp only
  rw [hrunTimed, failure?_of_completes h]
  exact hfinish

/-- A parallel run drives its scan, `drive`, and concludes with the state that the scan ends in,
`conclude`. -/
theorem runParallel_run (env : Env) (query : SelectQuery) (plan : Plan) (scan : ScanPlan)
    (run : Run) :
    ∃ entered : Run, run.Keeps entered ∧ ∀ done,
      ParallelScan.drive (env.parallelSetup (.ofPlan env.store run.context.vars query plan) scan)
        (Pipeline.consumer env (env.setup query plan.orderSatisfied)
          (.ofPlan env.store run.context.vars query plan))
        (ParallelScan.stepBound
          (env.parallelSetup (.ofPlan env.store run.context.vars query plan) scan))
        (ParallelScan.start
          (env.parallelSetup (.ofPlan env.store run.context.vars query plan) scan)
          entered.context (.start, entered)) = done →
      (runParallel env query plan scan).run.run run =
        (ParallelScan.conclude env (env.setup query plan.orderSatisfied) scan
          done).run.run entered := by
  obtain ⟨entered, hentered, hrunEntered⟩ := (Exec.gives_enter .scan).step run
  refine ⟨entered, hentered, ?_⟩
  rw [← hentered.vars]
  rintro done rfl
  exact (hrunEntered _).trans (run_bind ..)

/-- A parallel run that nothing ends early, `hidle`, delivers the row of every qualifying record of
its clusters, unless a record fails. -/
theorem runParallel_drains {query : SelectQuery} {plan : Plan} {scan : ScanPlan} {run : Run}
    (hwhole : query.Whole) (hidle : run.Idle env) (hrows : run.rows = [])
    (hscans : ∀ id ∈ scan.clusters, ∃ items,
      env.store.scanCluster id scan.direction scan.range = .ok items ∧
        (Evaluator.ofPlan env.store run.context.vars query plan).Reads items) :
    ∃ count after, ∃ chosen : List WorkItem,
      (runParallel env query plan scan).run.run run = (.ok count, after) ∧
      after.rows = chosen.map ((env.setup query plan.orderSatisfied).row
        (.ofPlan env.store run.context.vars query plan)) ∧
      chosen.Perm ((Evaluator.ofPlan env.store run.context.vars query plan).qualifyingIn scan) := by
  obtain ⟨entered, hentered, hrun⟩ := runParallel_run env query plan scan run
  have hidleEntered := hidle.keeps hentered
  -- nobody else raises a token, so that those raised at the start are all
  have hunder : entered.IdleUnder (· = entered.signals) env := by
    rintro signals rfl
    exact hidleEntered
  have hstart := @receives_start env (env.setup query plan.orderSatisfied)
    (.ofPlan env.store run.context.vars query plan) (· = entered.signals) scan entered hunder rfl
    (hentered.rows.trans hrows) hscans
  have htakes := @consumer_takes env (env.setup query plan.orderSatisfied)
    (.ofPlan env.store run.context.vars query plan) (· = entered.signals) hwhole.expand hwhole.limit
  have hcapacity : 0 < (env.parallelSetup (.ofPlan env.store run.context.vars query plan)
      scan).capacity := Nat.lt_of_lt_of_le Nat.one_pos (Nat.le_max_right _ _)
  have hcompletes := (ParallelScan.drive_induction
    (fun state next h hstep => ParallelScan.step_receives htakes h hstep) _ hstart).completes
    (ParallelScan.drive_isComplete hcapacity (ParallelScan.weight_start_le ..))
  obtain ⟨count, after, chosen, hconclude, hdelivers⟩ :=
    @conclude_drains _ _ _ _ scan _ _ _ hwhole hcompletes entered
  exact ⟨count, after, chosen, (hrun _ rfl).trans hconclude, hdelivers⟩

/-- A query with a worker per cluster that nothing hinders, `Env.Unhindered`, delivers the row of
every qualifying record of its clusters, unless a record fails. -/
theorem runQuery_drains_parallel {query : SelectQuery} {context : Context} {signals : Signals}
    (hunhindered : env.Unhindered query context signals) {plan : Plan}
    (hplan : env.plan query context = .ok plan) (hparallel : plan.parallel = true)
    {scan : ScanPlan} (hsource : plan.source = .rows (.scan scan))
    (hscans : ∀ id ∈ scan.clusters, ∃ items,
      env.store.scanCluster id scan.direction scan.range = .ok items ∧
        (Evaluator.ofPlan env.store context.vars query plan).Reads items) :
    ∃ chosen : List WorkItem, (∃ outcome, (runQuery env query context signals).1 = .ok outcome) ∧
      (runQuery env query context signals).2.rows =
        chosen.map ((env.setup query plan.orderSatisfied).row
          (.ofPlan env.store context.vars query plan)) ∧
      chosen.Perm ((Evaluator.ofPlan env.store context.vars query plan).qualifyingIn scan) := by
  rcases runQuery_cases env query context signals with
    ⟨failure, herror, -, -⟩ | ⟨plan', begun, hplan', hbegun, hvars, hidle, hrows, hok⟩
  · rw [hplan] at herror
    cases herror
  · -- planning is a function of the query, so the plan that was run is the given one
    obtain rfl : plan' = plan := Except.ok.inj (hplan'.symm.trans hplan)
    have hrun : runPlan env query plan' = runParallel env query plan' scan := by
      unfold runPlan
      rw [hsource, hparallel]
    rw [← hvars] at hscans ⊢
    obtain ⟨count, after, chosen, hparallelRun, hchosen, hperm⟩ :=
      runParallel_drains hunhindered.whole
        (hidle hunhindered.timeout hunhindered.defaultTimeout hunhindered.idle) hbegun hscans
    rw [hrun, hparallelRun] at hrows hok
    exact ⟨chosen, hok.mpr ⟨count, rfl⟩, hrows.trans hchosen, hperm⟩

end

end RecordQuery
