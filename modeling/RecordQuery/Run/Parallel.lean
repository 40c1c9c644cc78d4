import RecordQuery.Run.Evaluator
import RecordQuery.Run.Pipeline

/-!
# `RecordQuery.Run.Parallel`: a worker per cluster

In a parallel scan each cluster has a worker that reads its records, evaluates them, and
offers those that qualify to a bounded queue; one consumer takes them from the queue. When the
consumer closes, or a worker fails, the others find out at their next record and end.

`ParallelScan.step` says what one actor, a worker or the consumer, does next, and is `none`
while the actor has to wait or has ended. `Step` is the relation over all choices of actors,
so every interleaving is a path of it. The actors share the stop flag `running`, the cancel token
and the queue. Two looks at them by one actor are two steps, so that what the others do in between
is an interleaving too: a worker that has found nobody calling for a stop (`reading`) still has to
check the token, a consumer that has taken a record off the queue (`taken`) has to look at the flag,
and one that has called for a stop (`closing`) has not closed its end of the queue yet. What an
actor does by itself, evaluating a record above all, is part of the step before it.

A run, `drive`, follows one of the paths: the consumer goes on while it has something to do,
otherwise the first worker that can go on does.
-/

set_option autoImplicit false

namespace RecordQuery

/-- A record that qualifies, with its LET bindings. -/
structure WorkItem where
  /-- The record. -/
  record : Record
  /-- Its LET bindings. -/
  lets : Fields
deriving Repr

/-- What a worker is about to do. -/
inductive WorkerPhase where
  /-- Open its cluster. -/
  | starting
  /-- Look whether somebody has called for a stop, and read the first of the items that are left
  if nobody has. -/
  | scanning (items : List ScanItem)
  /-- Check the token and the deadline, and evaluate the item if it may go on. -/
  | reading (item : ScanItem) (items : List ScanItem)
  /-- Offer a record to the queue. -/
  | offering (item : WorkItem) (items : List ScanItem)
  /-- Wait for room in the queue, which was full. -/
  | blocked (item : WorkItem) (items : List ScanItem)
  /-- Nothing more, with the failure that ended it. -/
  | ended (failure : Option Failure)

/-- A worker of a parallel scan. -/
structure Worker where
  /-- Its cluster. -/
  cluster : ClusterId
  /-- Its fork of the context. -/
  context : Context
  /-- The number of conditions evaluated. -/
  filtered : Nat
  /-- What it is about to do. -/
  phase : WorkerPhase

namespace Worker

/-- Whether the worker has ended. -/
def isEnded (worker : Worker) : Bool :=
  match worker.phase with
  | .ended _ => true
  | _ => false

/-- The failure that ended the worker. -/
def failure? (worker : Worker) : Option Failure :=
  match worker.phase with
  | .ended failure => failure
  | _ => none

end Worker

/-- What stays the same during a parallel scan. -/
structure ParallelSetup where
  /-- How records are evaluated. -/
  evaluator : Evaluator
  /-- The scan. -/
  scan : ScanPlan
  /-- The clock. -/
  clock : Clock
  /-- The room of the queue, one place at least. -/
  capacity : Nat

/-- What takes the records from the queue. -/
structure Consumer (σ : Type) where
  /-- Takes a record, and says whether it wants another one. -/
  consume : WorkItem → σ → Except Failure Bool × σ
  /-- The cancel tokens that are raised. -/
  signals : σ → Signals

/-- The consumer's end of the queue. -/
inductive ConsumerPhase where
  /-- It waits for a record. -/
  | receiving
  /-- It has taken a record off the queue, and is about to look at the stop flag. -/
  | taken (item : WorkItem)
  /-- It is about to use a record. -/
  | handling (item : WorkItem)
  /-- It has called for a stop, and is about to close, with its failure if it failed. -/
  | closing (failure : Option Failure)
  /-- It takes no more, with its failure if it failed. -/
  | closed (failure : Option Failure)

/-- The state of a parallel scan. -/
structure ParallelState (σ : Type) where
  /-- The workers, in the order of their clusters. -/
  workers : List Worker
  /-- The queue, the oldest record first. -/
  queue : List WorkItem
  /-- Whether nobody has called for a stop. -/
  running : Bool
  /-- Whether the queue was found full. -/
  queueFull : Bool
  /-- The consumer's end. -/
  phase : ConsumerPhase
  /-- The state of the consumer. -/
  consumer : σ

/-- Who takes a step. -/
inductive Actor where
  /-- The worker at a place. -/
  | worker (place : Nat)
  /-- The consumer. -/
  | consumer
deriving DecidableEq, Repr

namespace ParallelState

variable {σ : Type}

/-- Whether the consumer's end of the queue is open. -/
def isOpen (state : ParallelState σ) : Bool :=
  match state.phase with
  | .closed _ => false
  | _ => true

/-- Whether the consumer has to wait for a record, or has closed. -/
def isIdle (state : ParallelState σ) : Bool :=
  match state.phase with
  | .receiving => state.queue.isEmpty
  | .taken _ | .handling _ | .closing _ => false
  | .closed _ => true

/-- Whether the consumer has closed and every worker has ended. -/
def isComplete (state : ParallelState σ) : Bool :=
  !state.isOpen && state.workers.all Worker.isEnded

/-- The state after one worker has changed. -/
def setWorker (state : ParallelState σ) (place : Nat) (worker : Worker) : ParallelState σ :=
  { state with workers := state.workers.set place worker }

/-- The state after a worker has failed, which calls for a stop. -/
def failWorker (state : ParallelState σ) (place : Nat) (worker : Worker) (failure : Failure) :
    ParallelState σ :=
  { state.setWorker place { worker with phase := .ended (some failure) } with running := false }

end ParallelState

namespace ParallelScan

variable {σ : Type}

/-- A worker looks at the stop flag: a stop ends it, otherwise it goes on to read an item. -/
def readFlag (state : ParallelState σ) (place : Nat) (worker : Worker) (item : ScanItem)
    (items : List ScanItem) : ParallelState σ :=
  if state.running then state.setWorker place { worker with phase := .reading item items }
  else state.setWorker place { worker with phase := .ended none }

/-- A worker reads an item: a raised token or an expired deadline ends it, a failure fails it, and
a record that qualifies is to be offered. -/
def readItem (setup : ParallelSetup) (signals : Signals) (state : ParallelState σ)
    (place : Nat) (worker : Worker) (item : ScanItem) (items : List ScanItem) :
    ParallelState σ :=
  match worker.context.check setup.clock signals with
  | (.error failure, context) => state.failWorker place { worker with context } failure
  | (.ok false, context) =>
      state.setWorker place { worker with context, phase := .ended none }
  | (.ok true, context) =>
      match item with
      | .error failure => state.failWorker place { worker with context } failure
      | .ok record =>
          let evaluation := setup.evaluator.evaluate record context.stats
          let counted : Worker :=
            { worker with
              context := { context with stats := evaluation.stats }
              filtered := worker.filtered + if evaluation.filtered then 1 else 0 }
          match evaluation.outcome with
          | .error failure => state.failWorker place counted failure
          | .ok none => state.setWorker place { counted with phase := .scanning items }
          | .ok (some lets) =>
              state.setWorker place { counted with phase := .offering ⟨record, lets⟩ items }

/-- A worker puts a record into the queue and goes on with its scan. -/
def enqueue (state : ParallelState σ) (place : Nat) (worker : Worker) (item : WorkItem)
    (items : List ScanItem) : ParallelState σ :=
  { state.setWorker place { worker with phase := .scanning items } with
    queue := state.queue ++ [item] }

/-- A worker finds the queue full; the first one to do so notes it. -/
def block (state : ParallelState σ) (place : Nat) (worker : Worker) (item : WorkItem)
    (items : List ScanItem) : ParallelState σ :=
  let stats := worker.context.stats
  let noted := { stats with queueFull := stats.queueFull || !state.queueFull }
  { state.setWorker place
      { worker with
        context := { worker.context with stats := noted }
        phase := .blocked item items } with
    queueFull := true }

/-- The next step of a worker. -/
def stepWorker (setup : ParallelSetup) (consumer : Consumer σ) (state : ParallelState σ)
    (place : Nat) : Option (ParallelState σ) := do
  let worker ← state.workers[place]?
  match worker.phase with
  | .starting =>
      match setup.evaluator.store.scanCluster worker.cluster setup.scan.direction
          setup.scan.range with
      | .ok items => some (state.setWorker place { worker with phase := .scanning items })
      | .error failure => some (state.failWorker place worker failure)
  | .scanning [] => some (state.setWorker place { worker with phase := .ended none })
  | .scanning (item :: items) => some (readFlag state place worker item items)
  | .reading item items =>
      some (readItem setup (consumer.signals state.consumer) state place worker item items)
  | .offering item items =>
      if !state.isOpen then
        some (state.setWorker place { worker with phase := .ended none })
      else if state.queue.length < setup.capacity then some (enqueue state place worker item items)
      else some (block state place worker item items)
  | .blocked item items =>
      if !state.isOpen then
        some (state.setWorker place { worker with phase := .ended none })
      else if state.queue.length < setup.capacity then some (enqueue state place worker item items)
      else none
  | .ended _ => none

/-- The consumer calls for a stop before it closes its end. -/
def stop (state : ParallelState σ) (failure : Option Failure) : ParallelState σ :=
  { state with phase := .closing failure, running := false }

/-- The consumer closes its end, and drops what is in the queue. -/
def close (state : ParallelState σ) (failure : Option Failure) : ParallelState σ :=
  { state with phase := .closed failure, queue := [] }

/-- The consumer uses a record, and goes on if it wants another one. -/
def useItem (consumer : Consumer σ) (state : ParallelState σ) (item : WorkItem) :
    ParallelState σ :=
  match consumer.consume item state.consumer with
  | (.ok true, after) => { state with phase := .receiving, consumer := after }
  | (.ok false, after) => stop { state with consumer := after } none
  | (.error failure, after) => stop { state with consumer := after } (some failure)

/-- The next step of the consumer. It waits while the queue is empty and some worker has not
ended. -/
def stepConsumer (consumer : Consumer σ) (state : ParallelState σ) :
    Option (ParallelState σ) :=
  match state.phase with
  | .receiving =>
      match state.queue with
      | [] => if state.workers.all Worker.isEnded then some (stop state none) else none
      | item :: queue => some { state with queue, phase := .taken item }
  | .taken item =>
      if state.running then some { state with phase := .handling item }
      else some (stop state none)
  | .handling item => some (useItem consumer state item)
  | .closing failure => some (close state failure)
  | .closed _ => none

/-- The next step of an actor. -/
def step (setup : ParallelSetup) (consumer : Consumer σ) (state : ParallelState σ) :
    Actor → Option (ParallelState σ)
  | .worker place => stepWorker setup consumer state place
  | .consumer => stepConsumer consumer state

/-- One state follows another by a step of some actor. -/
def Step (setup : ParallelSetup) (consumer : Consumer σ) (s t : ParallelState σ) : Prop :=
  ∃ actor, step setup consumer s actor = some t

/-- The state before the first step: a worker per cluster, an empty queue, nobody stopped. -/
def start (setup : ParallelSetup) (context : Context) (consumer : σ) : ParallelState σ :=
  { workers := setup.scan.clusters.map fun id => ⟨id, context.fork, 0, .starting⟩
    queue := [], running := true, queueFull := false, phase := .receiving, consumer }

/-- The states that some interleaving reaches. -/
inductive Reachable (setup : ParallelSetup) (consumer : Consumer σ) (context : Context)
    (initial : σ) : ParallelState σ → Prop
  | start : Reachable setup consumer context initial (start setup context initial)
  | next {s t : ParallelState σ} :
      Reachable setup consumer context initial s → Step setup consumer s t →
      Reachable setup consumer context initial t

/-- The step of the first worker that can take one. -/
def firstWorkerStep (setup : ParallelSetup) (consumer : Consumer σ) (state : ParallelState σ) :
    Option (ParallelState σ) :=
  (List.range state.workers.length).findSome? (stepWorker setup consumer state)

/-- The step that a run takes: the consumer's while it has something to do, otherwise that of the
first worker that can go on, otherwise the consumer's. -/
def nextStep (setup : ParallelSetup) (consumer : Consumer σ) (state : ParallelState σ) :
    Option (ParallelState σ) :=
  if state.isIdle then
    (firstWorkerStep setup consumer state).orElse fun _ => stepConsumer consumer state
  else
    (stepConsumer consumer state).orElse fun _ => firstWorkerStep setup consumer state

/-- Takes steps until nobody can, at most the given number of them. -/
def drive (setup : ParallelSetup) (consumer : Consumer σ) :
    Nat → ParallelState σ → ParallelState σ
  | 0, state => state
  | steps + 1, state =>
      match nextStep setup consumer state with
      | some after => drive setup consumer steps after
      | none => state

/-- More steps than this no run takes: for each record four of its worker and three of the
consumer, for each worker its start and its end, and for the consumer its stop and its close. -/
def stepBound (setup : ParallelSetup) : Nat :=
  let records := setup.scan.clusters.flatMap fun id =>
    ((setup.evaluator.store.cluster? id).map (·.records)).getD []
  7 * (records.length + setup.scan.clusters.length) + 2 * setup.scan.clusters.length + 2

/-- The first failure: the consumer's, otherwise that of the first worker in the order of
clusters. -/
def failure? (state : ParallelState σ) : Option Failure :=
  let ofConsumer := match state.phase with
    | .closed failure => failure
    | _ => none
  ofConsumer.orElse fun _ => state.workers.findSome? Worker.failure?

end ParallelScan

/-- The consumer that hands records to a pipeline, after a check of the deadline. -/
def Pipeline.consumer (env : Env) (setup : PipelineSetup) (evaluator : Evaluator) :
    Consumer (Pipeline × Run) where
  consume item state :=
    let accept : Exec (Bool × Pipeline) := do
      if ← Exec.check env then
        state.1.accept env setup (evaluator.scope item.lets) item.record
      else return (false, state.1)
    match accept.run.run state.2 with
    | (.ok (more, pipeline), run) => (.ok more, (pipeline, run))
    | (.error failure, run) => (.error failure, (state.1, run))
  signals state := state.2.signals

/-- Folds a worker that has ended back into the run. -/
def Run.joinWorker (run : Run) (worker : Worker) : Run :=
  { run with
    context := run.context.join worker.context
    events := List.replicate worker.filtered (.timer .filter) ++ run.events }

/-- Runs a plan with a worker per cluster, and returns the number of rows delivered. -/
def runParallel (env : Env) (query : SelectQuery) (plan : Plan) (scan : ScanPlan) : Exec Nat := do
  let setup : PipelineSetup :=
    ⟨query, plan.orderSatisfied, env.options.sortSlack, env.options.limitHintThreshold⟩
  Exec.enter .scan
  let run ← getThe Run
  let evaluator := Evaluator.ofPlan env.store run.context.vars query plan
  let parallel : ParallelSetup := ⟨evaluator, scan, env.clock, max env.options.queueCapacity 1⟩
  let consumer := Pipeline.consumer env setup evaluator
  let done := ParallelScan.drive parallel consumer (ParallelScan.stepBound parallel)
    (ParallelScan.start parallel run.context (.start, run))
  let (pipeline, consumed) := done.consumer
  set (done.workers.foldl Run.joinWorker
    (consumed.modifyStats fun stats =>
      { stats with parallelTasks := stats.parallelTasks + scan.clusters.length }))
  Exec.time .scan
  match ParallelScan.failure? done with
  | some failure => throw failure
  | none => pipeline.finish env setup

end RecordQuery
