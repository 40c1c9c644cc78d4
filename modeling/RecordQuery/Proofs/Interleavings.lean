import RecordQuery.Proofs.ParallelRun
import RecordQuery.Proofs.SerialCounts

/-!
# `RecordQuery.Proofs.Interleavings`: every interleaving of a parallel scan

A parallel scan is a relation between its states, `ParallelScan.Step`, and a run is one path of it.
Three things hold of all paths, whatever the order in which workers and consumer take their steps:

* A worker gives up only after another one has failed, or after the consumer has closed. So as long
  as nobody has failed, the records that the consumer has taken from a cluster, those of it in the
  queue and those that its worker has left are the qualifying records of the cluster in scan order.
* A worker fails only with the failure of its own cluster.
* Whoever has not finished can go on, or waits for somebody who can.

The first two are one invariant, `Tracks`. It has a part that holds in every state: `Worker.Honest`
says with what a worker can fail, and `used` that the consumer has taken some records. The other
part, `progress`, holds in one of two forms. `Whole` says that nothing is lost, cluster by cluster,
with `Worker.Undisturbed`, which also has the counters of the worker in it. `Failed` says that some
worker has failed and called for a stop; from then on records may be lost. There is one lemma for
each step of a worker, and `Tracks.stepWorker` puts them together.

A consumer is any function of its state, `Consumer`, and it is `Willing` if it never stops. The
parts on what has been handed over ask for this; that a scan goes on does not. Neither a deadline
nor a token comes in here: those of a query are the matter of `ParallelRun` and `Executions`. A
worker reads the flag of the others and the next item in two steps, and the consumer may close
between them.

What the workers have counted is added up when they are folded back into a run, `Run.joinWorker`. It
is what `Evaluator.evaluateAll` counts, and so what `runSerial` counts over the same clusters, by
`runSerial_counts`. The theorems:

* `Tracks.stepWorker`, `Tracks.stepConsumer`: each step keeps the invariant.
* `Tracks.of_reachable`: it holds in every state that some interleaving reaches.
* `interleavings`: what a scan that is over has handed over and counted, how it has failed, and that
  every other one goes on.
-/

set_option autoImplicit false

namespace RecordQuery

open Steps

/-! ## What the scan of a cluster gives

What the workers hand over is compared with what the serial scan of the same clusters gives. These
definitions say it for one cluster: its failure, if it has one, and its qualifying records
otherwise. -/

/-- The failure that a scan runs into: the first `.error` among its items. -/
def Store.scanFailure? : List ScanItem → Option Failure
  | [] => none
  | .error failure :: _ => some failure
  | .ok _ :: items => scanFailure? items

/-- A scan runs into no failure exactly if it gives records only: `scanFailure?` looks for the first
failure. -/
theorem Store.scanFailure?_eq_none_iff {items : List ScanItem} :
    Store.scanFailure? items = none ↔ ∀ item ∈ items, ∃ r, item = .ok r := by
  induction items with
  | nil => simp [scanFailure?]
  | cons item items ih =>
      cases item with
      | error failure => simp [scanFailure?]
      | ok r => simp [scanFailure?, ih]

/-- The failure of a cluster: that of opening its scan with `scanCluster`, or the one that the scan
runs into. -/
def ParallelSetup.failureOf? (setup : ParallelSetup) (id : ClusterId) : Option Failure :=
  match setup.evaluator.store.scanCluster id setup.scan.direction setup.scan.range with
  | .ok items => Store.scanFailure? items
  | .error failure => some failure

/-- The qualifying records of a list of items that begins with a record, which `Evaluator.item?`
keeps or drops. -/
theorem Evaluator.qualifying_cons (evaluator : Evaluator) (r : Record) (items : List ScanItem) :
    evaluator.qualifying (.ok r :: items) =
      (evaluator.item? r).toList ++ evaluator.qualifying items := by
  unfold qualifying
  rw [Store.scannedRecords_cons, List.filterMap_cons]
  cases evaluator.item? r <;> rfl

/-- The `qualifying` records among `itemsOf` a cluster are records of the cluster. So the records of
a cluster can be told among those that have come. -/
theorem ParallelSetup.cluster_of_qualifying {setup : ParallelSetup}
    (hsound : setup.evaluator.store.Sound) {id : ClusterId} {item : WorkItem}
    (hitem : item ∈ setup.evaluator.qualifying (setup.itemsOf id)) :
    item.record.rid.cluster = id := by
  obtain ⟨r, hr, hqualifies⟩ := List.mem_filterMap.mp hitem
  rw [(Evaluator.item?_eq_some_iff.mp hqualifies).1]
  unfold ParallelSetup.itemsOf at hr
  cases hscan : setup.evaluator.store.scanCluster id setup.scan.direction setup.scan.range with
  | error failure =>
      rw [hscan] at hr
      cases hr
  | ok items =>
      rw [hscan] at hr
      exact (hsound.mem_of_scannedCluster hscan (Store.mem_scannedRecords.mp hr)).2.1

/-! ## Workers

Two things are said of a worker, apart. `Worker.Honest` is about how it can end, and lasts through
the whole scan. `Worker.Undisturbed` is about what it has passed on, and lasts as long as nobody has
failed. -/

namespace Worker

/-- The items that a worker has not read, by its phase. Before its scan is opened these are all of
`ParallelSetup.itemsOf`. An item that it is about to read is one of them. -/
def unread (setup : ParallelSetup) (worker : Worker) : List ScanItem :=
  match worker.phase with
  | .starting => setup.itemsOf worker.cluster
  | .scanning items | .offering _ items | .blocked _ items => items
  | .reading item items => item :: items
  | .ended _ => []

/-- Neither a deadline nor a token nor the condition can end the worker, only the failure of its own
cluster can. This stays so after others have failed, while `Undisturbed` does not. -/
structure Honest (setup : ParallelSetup) (worker : Worker) : Prop where
  /-- There is no deadline. -/
  deadline : worker.context.deadline = none
  /-- No deadline has ended the worker. -/
  timedOut : worker.context.timedOut = false
  /-- There is no token. -/
  token : worker.context.token = none
  /-- The condition can be evaluated on the records that are left. -/
  evaluates : setup.evaluator.Evaluates (worker.unread setup)
  /-- What is left fails as the cluster does, and so has a worker that has failed. -/
  phase : match worker.phase with
    | .starting => True
    | .scanning items | .offering _ items | .blocked _ items =>
        Store.scanFailure? items = setup.failureOf? worker.cluster
    | .reading item items => Store.scanFailure? (item :: items) = setup.failureOf? worker.cluster
    | .ended failure => failure = none ∨ failure = setup.failureOf? worker.cluster

/-- Nobody has stopped the worker before the end of its scan, and of its cluster it has passed on
what it should have. `passed` are the records of all workers. -/
structure Undisturbed (setup : ParallelSetup) (passed : List WorkItem) (worker : Worker) :
    Prop where
  /-- The records passed on and those left are the qualifying ones, in scan order. -/
  handed : passed.filter (fun item => item.record.rid.cluster == worker.cluster) ++
    worker.remaining setup = setup.evaluator.qualifying (setup.itemsOf worker.cluster)
  /-- Every record read is counted. -/
  reads : worker.context.stats.reads + (Store.scannedRecords (worker.unread setup)).length =
    (Store.scannedRecords (setup.itemsOf worker.cluster)).length
  /-- Every record read that belongs to the class of the target is counted. -/
  analyzed : worker.context.stats.analyzed + setup.evaluator.countClass (worker.unread setup) =
    setup.evaluator.countClass (setup.itemsOf worker.cluster)
  /-- It has ended only because its cluster ended without a failure. -/
  ended : worker.isEnded = true → worker.phase = .ended none ∧
    setup.failureOf? worker.cluster = none

/-- Without a deadline and a token a worker may go on: `Context.check` says yes and changes
nothing. -/
theorem Honest.check {setup : ParallelSetup} {worker : Worker} (h : worker.Honest setup)
    (clock : Clock) (signals : Signals) :
    worker.context.check clock signals = (.ok true, worker.context) := by
  simp [Context.check, Context.isCancelled, h.token, h.timedOut, h.deadline]

/-- Records of other clusters that are passed on, `out`, change nothing for a worker. -/
theorem Undisturbed.beside {setup : ParallelSetup} {passed out : List WorkItem} {worker : Worker}
    (h : worker.Undisturbed setup passed)
    (hout : ∀ item ∈ out, item.record.rid.cluster ≠ worker.cluster) :
    worker.Undisturbed setup (passed ++ out) := by
  refine ⟨?_, h.reads, h.analyzed, h.ended⟩
  have hnone : out.filter (fun item => item.record.rid.cluster == worker.cluster) = [] :=
    List.filter_eq_nil_iff.mpr fun item hitem => by simpa using hout item hitem
  rw [List.filter_append, hnone, List.append_nil, h.handed]

/-- A worker goes on undisturbed when it passes on what it had left first, `out`, and counts what it
reads. The steps of a worker differ in `out`, and in what they read. -/
theorem Undisturbed.advance {setup : ParallelSetup} {passed out : List WorkItem}
    {worker after : Worker} (h : worker.Undisturbed setup passed)
    (hcluster : after.cluster = worker.cluster)
    (hout : ∀ item ∈ out, item.record.rid.cluster = worker.cluster)
    (hremaining : worker.remaining setup = out ++ after.remaining setup)
    (hreads : after.context.stats.reads + (Store.scannedRecords (after.unread setup)).length =
      worker.context.stats.reads + (Store.scannedRecords (worker.unread setup)).length)
    (hanalyzed : after.context.stats.analyzed + setup.evaluator.countClass (after.unread setup) =
      worker.context.stats.analyzed + setup.evaluator.countClass (worker.unread setup))
    (hended : after.isEnded = true → after.phase = .ended none ∧
      setup.failureOf? worker.cluster = none) :
    after.Undisturbed setup (passed ++ out) := by
  -- all that is passed on is of the cluster of the worker
  have hall : out.filter (fun item => item.record.rid.cluster == worker.cluster) = out :=
    List.filter_eq_self.mpr fun item hitem => by simpa using hout item hitem
  constructor
  · rw [hcluster, List.filter_append, hall, List.append_assoc, ← hremaining, h.handed]
  · rw [hcluster, hreads, h.reads]
  · rw [hcluster, hanalyzed, h.analyzed]
  · rw [hcluster]
    exact hended

/-- A worker that ends without a failure, or with that of its cluster, `failureOf?`, stays
honest. -/
theorem Honest.endWith {setup : ParallelSetup} {worker : Worker} (h : worker.Honest setup)
    {failure : Option Failure}
    (hfailure : failure = none ∨ failure = setup.failureOf? worker.cluster) :
    { worker with phase := .ended failure }.Honest setup where
  deadline := h.deadline
  timedOut := h.timedOut
  token := h.token
  evaluates _ hr := by cases hr
  phase := hfailure

/-- A worker that has ended, `isEnded`, reads nothing more. -/
theorem unread_of_isEnded {setup : ParallelSetup} {worker : Worker}
    (h : worker.isEnded = true) : worker.unread setup = [] := by
  unfold isEnded at h
  unfold unread
  cases hphase : worker.phase with
  | ended failure => rfl
  | starting | scanning items | reading item items | offering item items | blocked item items =>
      rw [hphase] at h
      cases h

end Worker

/-! ## The consumer

What the sink and the pipeline do with a record is left open here. Only a consumer that always wants
another record takes all of them, so what is said of lost records asks for one that is `Willing`. -/

section

variable {σ : Type}

/-- The state of the consumer after it has taken some records, one by one with
`Consumer.consume`. -/
def Consumer.after (consumer : Consumer σ) (taken : List WorkItem) (initial : σ) : σ :=
  taken.foldl (fun state item => (consumer.consume item state).2) initial

/-- The consumer never stops: however many records it has taken since `initial`, it takes the next
one and wants another one. -/
def Consumer.Willing (consumer : Consumer σ) (initial : σ) : Prop :=
  ∀ taken item, (consumer.consume item (consumer.after taken initial)).1 = .ok true

/-- A consumer that never stops takes the next record, and is then `after` one more. -/
theorem Consumer.Willing.consume {consumer : Consumer σ} {initial : σ}
    (h : consumer.Willing initial) (taken : List WorkItem) (item : WorkItem) :
    consumer.consume item (consumer.after taken initial) =
      (.ok true, consumer.after (taken ++ [item]) initial) := by
  refine Prod.ext (h taken item) ?_
  simp [Consumer.after, List.foldl_append]

/-! ## The invariant

`Tracks` is `Worker.Honest` for every worker together with `Whole` or `Failed`. The lemmas
`of_worker` say how each of the two lasts when one worker changes and the others stay, and the
lemmas after them take one step of a worker or of the consumer each. -/

namespace ParallelScan

variable {setup : ParallelSetup} {consumer : Consumer σ} {initial : σ}

/-- Some worker has failed, and has raised `stop`. No step takes this back. -/
structure Failed (state : ParallelState σ) : Prop where
  /-- A worker has failed. -/
  worker : ∃ worker ∈ state.workers, ∃ failure, worker.phase = .ended (some failure)
  /-- Nobody reads another record. -/
  running : state.running = false

/-- No worker has failed, and the consumer has taken what has come to it. Between a worker and the
consumer there is the queue, `between`. -/
structure Whole (setup : ParallelSetup) (consumer : Consumer σ) (initial : σ)
    (state : ParallelState σ) : Prop where
  /-- Nobody stops before all workers have ended. -/
  going : Uninterrupted state
  /-- Each cluster's records have come in scan order, and no others have. -/
  received : ∃ received, state.consumer = consumer.after received initial ∧
    (∀ item ∈ received ++ state.between, item.record.rid.cluster ∈ setup.scan.clusters) ∧
    ∀ worker ∈ state.workers, worker.Undisturbed setup (received ++ state.between)

/-- What holds in every state of a parallel scan whose consumer never stops. This is the invariant
that all steps preserve. -/
structure Tracks (setup : ParallelSetup) (consumer : Consumer σ) (initial : σ)
    (state : ParallelState σ) : Prop where
  /-- There is a worker for each cluster. -/
  clusters : state.workers.map (·.cluster) = setup.scan.clusters
  /-- Workers fail only with the failures of their clusters. -/
  honest : ∀ worker ∈ state.workers, worker.Honest setup
  /-- The consumer does not fail. -/
  phase : state.phase.isTaking = true ∨ state.phase = .closing none ∨ state.phase = .closed none
  /-- The consumer has used some records, also where somebody has failed. -/
  used : ∃ received, state.consumer = consumer.after received initial
  /-- Unless somebody has failed, nothing is lost. -/
  progress : Failed state ∨ Whole setup consumer initial state

/-- A worker that changes while it has not ended leaves a failure of another one in place: it is not
the failed one, `hlive`. -/
theorem Failed.of_worker {state next : ParallelState σ} {worker after : Worker} {place : Nat}
    (h : Failed state) (hworker : state.workers[place]? = some worker)
    (hlive : worker.isEnded = false)
    (hworkers : next.workers = (state.setWorker place after).workers)
    (hrunning : next.running = false) : Failed next := by
  obtain ⟨failed, hfailed, failure, hphase⟩ := h.worker
  obtain ⟨before, behind, hsplit, hset⟩ := setWorker_split hworker
  refine ⟨⟨failed, ?_, failure, hphase⟩, hrunning⟩
  rw [hworkers, hset]
  rw [hsplit] at hfailed
  rcases List.mem_append.mp hfailed with hfailed | hfailed
  · exact List.mem_append_left _ hfailed
  · rcases List.mem_cons.mp hfailed with rfl | hfailed
    · simp [Worker.isEnded, hphase] at hlive
    · exact List.mem_append_right _ (List.mem_cons_of_mem _ hfailed)

/-- A worker that goes on by itself loses nothing: `out` is what it puts into the queue, and the
other workers stay as they are. -/
theorem Whole.of_worker {state next : ParallelState σ} {worker after : Worker} {place : Nat}
    {out : List WorkItem} (h : Whole setup consumer initial state)
    (hsound : setup.evaluator.store.Sound)
    (hclusters : state.workers.map (·.cluster) = setup.scan.clusters)
    (hnodup : setup.scan.clusters.Nodup) (hworker : state.workers[place]? = some worker)
    (hlive : worker.isEnded = false)
    (hworkers : next.workers = (state.setWorker place after).workers)
    (hphase : next.phase = state.phase) (hrunning : next.running = state.running)
    (hconsumer : next.consumer = state.consumer) (hqueue : next.queue = state.queue ++ out)
    (hcluster : after.cluster = worker.cluster)
    (hremaining : worker.remaining setup = out ++ after.remaining setup)
    (hreads : after.context.stats.reads + (Store.scannedRecords (after.unread setup)).length =
      worker.context.stats.reads + (Store.scannedRecords (worker.unread setup)).length)
    (hanalyzed : after.context.stats.analyzed + setup.evaluator.countClass (after.unread setup) =
      worker.context.stats.analyzed + setup.evaluator.countClass (worker.unread setup))
    (hended : after.isEnded = true → after.phase = .ended none ∧
      setup.failureOf? worker.cluster = none) :
    Whole setup consumer initial next := by
  have hmem := List.mem_of_getElem? hworker
  obtain ⟨hgoing, htaking⟩ := h.going.of_live hmem hlive
  obtain ⟨received, hafter, hforeign, heach⟩ := h.received
  obtain ⟨before, behind, hsplit, hset⟩ := setWorker_split hworker
  -- what is passed on belongs to the worker's own cluster, and to no other one
  have hout : ∀ item ∈ out, item.record.rid.cluster = worker.cluster := by
    intro item hitem
    refine ParallelSetup.cluster_of_qualifying hsound ?_
    rw [← (heach worker hmem).handed, hremaining]
    exact List.mem_append_right _ (List.mem_append_left _ hitem)
  rw [← hclusters, hsplit, List.map_append, List.map_cons] at hnodup
  have hothers : ∀ other ∈ before ++ behind, other.cluster ≠ worker.cluster := by
    have hmiddle := (List.nodup_middle.mp hnodup)
    rw [List.nodup_cons, ← List.map_append] at hmiddle
    intro other hother heq
    exact hmiddle.1 (List.mem_map.mpr ⟨other, hother, heq⟩)
  -- what the worker passes on is the last of what is on its way
  have hbetween : next.between = state.between ++ out := by
    unfold ParallelState.between
    rw [hphase, hqueue, List.append_assoc]
  refine ⟨.inl ⟨hrunning.trans hgoing, hphase ▸ htaking⟩, received, hconsumer.trans hafter, ?own,
    ?each⟩
  case own =>
    intro item hitem
    rw [hbetween, ← List.append_assoc] at hitem
    rcases List.mem_append.mp hitem with hitem | hitem
    · exact hforeign item hitem
    · rw [hout item hitem, ← hclusters]
      exact List.mem_map_of_mem hmem
  case each =>
    intro other hother
    rw [hbetween, ← List.append_assoc]
    rw [hworkers, hset] at hother
    have hbeside (hother : other ∈ before ++ behind) :
        other.Undisturbed setup (received ++ state.between ++ out) := by
      refine (heach other ?_).beside fun item hitem => ?_
      · rw [hsplit]
        rcases List.mem_append.mp hother with hother | hother
        · exact List.mem_append_left _ hother
        · exact List.mem_append_right _ (List.mem_cons_of_mem _ hother)
      · rw [hout item hitem]
        exact (hothers other hother).symm
    rcases List.mem_append.mp hother with hother | hother
    · exact hbeside (List.mem_append_left _ hother)
    · rcases List.mem_cons.mp hother with rfl | hother
      · exact (heach worker hmem).advance hcluster hout hremaining hreads hanalyzed hended
      · exact hbeside (List.mem_append_right _ hother)

/-- A worker that changes while it has not ended keeps the invariant `Tracks`, if it stays `Honest`,
and if nothing is lost as long as nobody has failed. -/
theorem Tracks.of_worker {state next : ParallelState σ} {worker after : Worker} {place : Nat}
    (h : Tracks setup consumer initial state) (hworker : state.workers[place]? = some worker)
    (hlive : worker.isEnded = false)
    (hworkers : next.workers = (state.setWorker place after).workers)
    (hphase : next.phase = state.phase) (hconsumer : next.consumer = state.consumer)
    (hcluster : after.cluster = worker.cluster) (hhonest : after.Honest setup)
    (hrunning : state.running = false → next.running = false)
    (hwhole : Whole setup consumer initial state →
      Failed next ∨ Whole setup consumer initial next) :
    Tracks setup consumer initial next := by
  obtain ⟨before, behind, hsplit, hset⟩ := setWorker_split hworker
  constructor
  case phase => exact hphase ▸ h.phase
  case used => exact hconsumer ▸ h.used
  case clusters =>
    rw [hworkers, hset, ← h.clusters, hsplit]
    simp [hcluster]
  case honest =>
    intro other hother
    rw [hworkers, hset] at hother
    rcases List.mem_append.mp hother with hother | hother
    · exact h.honest other (hsplit ▸ List.mem_append_left _ hother)
    · rcases List.mem_cons.mp hother with rfl | hother
      · exact hhonest
      · exact h.honest other (hsplit ▸ List.mem_append_right _ (List.mem_cons_of_mem _ hother))
  case progress =>
    -- a failure stays, as the worker that failed has ended and is another one
    rcases h.progress with hfailed | hprogress
    · exact .inl (hfailed.of_worker hworker hlive hworkers (hrunning hfailed.running))
    · exact hwhole hprogress

/-- A worker that goes on by itself keeps the invariant, if it stays `Honest`: `Whole.of_worker`
says that nothing is lost. -/
theorem Tracks.goOn {state next : ParallelState σ} {worker after : Worker} {place : Nat}
    {out : List WorkItem} (h : Tracks setup consumer initial state)
    (hsound : setup.evaluator.store.Sound) (hnodup : setup.scan.clusters.Nodup)
    (hworker : state.workers[place]? = some worker) (hlive : worker.isEnded = false)
    (hworkers : next.workers = (state.setWorker place after).workers)
    (hphase : next.phase = state.phase) (hrunning : next.running = state.running)
    (hconsumer : next.consumer = state.consumer) (hqueue : next.queue = state.queue ++ out)
    (hcluster : after.cluster = worker.cluster) (hhonest : after.Honest setup)
    (hremaining : worker.remaining setup = out ++ after.remaining setup)
    (hreads : after.context.stats.reads + (Store.scannedRecords (after.unread setup)).length =
      worker.context.stats.reads + (Store.scannedRecords (worker.unread setup)).length)
    (hanalyzed : after.context.stats.analyzed + setup.evaluator.countClass (after.unread setup) =
      worker.context.stats.analyzed + setup.evaluator.countClass (worker.unread setup))
    (hended : after.isEnded = true → after.phase = .ended none ∧
      setup.failureOf? worker.cluster = none) :
    Tracks setup consumer initial next := by
  refine h.of_worker hworker hlive hworkers hphase hconsumer hcluster hhonest hrunning.trans
    fun hwhole => ?_
  exact .inr (hwhole.of_worker hsound h.clusters hnodup hworker hlive hworkers hphase hrunning
    hconsumer hqueue hcluster hremaining hreads hanalyzed hended)

/-- A worker that fails with the failure of its cluster keeps the invariant: from now on somebody
has `Failed`. -/
theorem Tracks.fail {state : ParallelState σ} {worker : Worker} {place : Nat}
    (h : Tracks setup consumer initial state) (hworker : state.workers[place]? = some worker)
    (hlive : worker.isEnded = false) {failure : Failure}
    (hfailure : setup.failureOf? worker.cluster = some failure) :
    Tracks setup consumer initial (state.failWorker place worker failure) := by
  have hhonest := h.honest worker (List.mem_of_getElem? hworker)
  obtain ⟨before, behind, -, hset⟩ := setWorker_split hworker
  have hfailed : Failed (state.failWorker place worker failure) := by
    refine ⟨⟨{ worker with phase := .ended (some failure) }, ?_, failure, rfl⟩, rfl⟩
    show _ ∈ (state.setWorker place { worker with phase := .ended (some failure) }).workers
    rw [hset]
    exact List.mem_append_right _ List.mem_cons_self
  exact h.of_worker hworker hlive rfl rfl rfl rfl (hhonest.endWith (.inr hfailure.symm))
    (fun _ => rfl) fun _ => .inl hfailed

/-- A worker gives up only after somebody else has failed: as the consumer never stops, `hstopped`
can have no other reason. -/
theorem Tracks.giveUp {state : ParallelState σ} {worker : Worker} {place : Nat}
    (h : Tracks setup consumer initial state) (hworker : state.workers[place]? = some worker)
    (hlive : worker.isEnded = false)
    (hstopped : ¬(state.running = true ∧ state.phase.isTaking = true)) :
    Tracks setup consumer initial (state.setWorker place { worker with phase := .ended none }) := by
  have hmem := List.mem_of_getElem? hworker
  refine h.of_worker hworker hlive rfl rfl rfl rfl ((h.honest worker hmem).endWith (.inl rfl)) id ?_
  intro hwhole
  exact absurd (hwhole.going.of_live hmem hlive) hstopped

/-- Reading an item, `ParallelScan.readItem`, keeps the invariant: the record is counted, and
dropped or kept to be offered. A deadline and a token are excluded by `Honest`. -/
theorem Tracks.readItem {state : ParallelState σ} {worker : Worker} {place : Nat}
    (h : Tracks setup consumer initial state) (hsound : setup.evaluator.store.Sound)
    (hnodup : setup.scan.clusters.Nodup) (hworker : state.workers[place]? = some worker)
    {item : ScanItem} {items : List ScanItem} (hnow : worker.phase = .reading item items) :
    Tracks setup consumer initial
      (ParallelScan.readItem setup (consumer.signals state.consumer) state place worker item
        items) := by
  have hlive : worker.isEnded = false := by simp [Worker.isEnded, hnow]
  have hunread : worker.unread setup = item :: items := by simp [Worker.unread, hnow]
  have hhonest := h.honest worker (List.mem_of_getElem? hworker)
  have hphase := hhonest.phase
  have hevaluates := hhonest.evaluates
  rw [hnow] at hphase
  rw [hunread] at hevaluates
  unfold ParallelScan.readItem
  rw [hhonest.check]
  dsimp only
  cases item with
  | error failure => exact h.fail hworker hlive hphase.symm
  | ok r =>
      obtain ⟨lets, hlets⟩ := hevaluates r List.mem_cons_self
      have hrest : setup.evaluator.Evaluates items := fun s hs =>
        hevaluates s (List.mem_cons_of_mem _ hs)
      obtain ⟨hreads, hanalyzed⟩ := setup.evaluator.stats_evaluate r worker.context.stats
      -- the record that is counted is the one that is no longer unread
      have hcountReads : (setup.evaluator.evaluate r worker.context.stats).stats.reads +
          (Store.scannedRecords items).length =
          worker.context.stats.reads + (Store.scannedRecords (worker.unread setup)).length := by
        rw [hunread, hreads, Store.scannedRecords_cons, List.length_cons]
        omega
      have hcountAnalyzed : (setup.evaluator.evaluate r worker.context.stats).stats.analyzed +
          setup.evaluator.countClass items =
          worker.context.stats.analyzed + setup.evaluator.countClass (worker.unread setup) := by
        unfold Evaluator.countClass
        rw [hunread, hanalyzed, Store.scannedRecords_cons, List.countP_cons]
        omega
      have hremaining : worker.remaining setup =
          (setup.evaluator.item? r).toList ++ setup.evaluator.qualifying items := by
        simp only [Worker.remaining, hnow]
        exact setup.evaluator.qualifying_cons r items
      dsimp only
      rw [outcome_evaluate, hlets]
      cases lets with
      | none =>
          rw [show setup.evaluator.item? r = none by simp [Evaluator.item?, hlets]] at hremaining
          exact h.goOn hsound hnodup hworker hlive rfl rfl rfl rfl (List.append_nil _).symm rfl
            ⟨hhonest.deadline, hhonest.timedOut, hhonest.token, hrest, hphase⟩
            hremaining hcountReads hcountAnalyzed (by simp [Worker.isEnded])
      | some lets =>
          rw [show setup.evaluator.item? r = some ⟨r, lets⟩ by
            simp [Evaluator.item?, hlets]] at hremaining
          exact h.goOn hsound hnodup hworker hlive rfl rfl rfl rfl (List.append_nil _).symm rfl
            ⟨hhonest.deadline, hhonest.timedOut, hhonest.token, hrest, hphase⟩
            hremaining hcountReads hcountAnalyzed (by simp [Worker.isEnded])

/-- Putting a record into the queue, `ParallelScan.enqueue`, keeps the invariant: the record goes
from the worker to those in `between`. -/
theorem Tracks.enqueue {state : ParallelState σ} {worker : Worker} {place : Nat}
    (h : Tracks setup consumer initial state) (hsound : setup.evaluator.store.Sound)
    (hnodup : setup.scan.clusters.Nodup) (hworker : state.workers[place]? = some worker)
    {item : WorkItem} {items : List ScanItem}
    (hholds : worker.Holds item items) :
    Tracks setup consumer initial (ParallelScan.enqueue state place worker item items) := by
  have hlive : worker.isEnded = false := by
    -- a worker holds a record when it has read it, and also while the queue was full
    rcases hholds with hnow | hnow <;> simp [Worker.isEnded, hnow]
  have hunread : worker.unread setup = items := by
    rcases hholds with hnow | hnow <;> simp [Worker.unread, hnow]
  have hremaining : worker.remaining setup = [item] ++ setup.evaluator.qualifying items := by
    rcases hholds with hnow | hnow <;> simp [Worker.remaining, hnow]
  have hhonest := h.honest worker (List.mem_of_getElem? hworker)
  have hevaluates := hhonest.evaluates
  have hphase : Store.scanFailure? items = setup.failureOf? worker.cluster := by
    have hphase := hhonest.phase
    rcases hholds with hnow | hnow <;> rwa [hnow] at hphase
  rw [hunread] at hevaluates
  exact h.goOn hsound hnodup hworker hlive rfl rfl rfl rfl rfl rfl
    ⟨hhonest.deadline, hhonest.timedOut, hhonest.token, hevaluates, hphase⟩ hremaining
    (by rw [hunread]; rfl) (by rw [hunread]; rfl) (by simp [Worker.isEnded])

/-- Finding the queue full, `ParallelScan.block`, keeps the invariant: the worker still holds its
record. -/
theorem Tracks.block {state : ParallelState σ} {worker : Worker} {place : Nat}
    (h : Tracks setup consumer initial state) (hsound : setup.evaluator.store.Sound)
    (hnodup : setup.scan.clusters.Nodup) (hworker : state.workers[place]? = some worker)
    {item : WorkItem} {items : List ScanItem} (hnow : worker.phase = .offering item items) :
    Tracks setup consumer initial (ParallelScan.block state place worker item items) := by
  have hlive : worker.isEnded = false := by simp [Worker.isEnded, hnow]
  have hunread : worker.unread setup = items := by simp [Worker.unread, hnow]
  have hremaining : worker.remaining setup = item :: setup.evaluator.qualifying items := by
    simp [Worker.remaining, hnow]
  have hhonest := h.honest worker (List.mem_of_getElem? hworker)
  have hevaluates := hhonest.evaluates
  have hphase := hhonest.phase
  rw [hnow] at hphase
  rw [hunread] at hevaluates
  exact h.goOn hsound hnodup hworker hlive rfl rfl rfl rfl (List.append_nil _).symm rfl
    ⟨hhonest.deadline, hhonest.timedOut, hhonest.token, hevaluates, hphase⟩ hremaining
    (by rw [hunread]; rfl) (by rw [hunread]; rfl) (by simp [Worker.isEnded])

/-- Opening the scan of a cluster keeps the invariant: the items are those of `itemsOf`, which
counted as unread before. -/
theorem Tracks.openScan {state : ParallelState σ} {worker : Worker} {place : Nat}
    (h : Tracks setup consumer initial state) (hsound : setup.evaluator.store.Sound)
    (hnodup : setup.scan.clusters.Nodup) (hworker : state.workers[place]? = some worker)
    (hnow : worker.phase = .starting) {items : List ScanItem}
    (hscan : setup.evaluator.store.scanCluster worker.cluster setup.scan.direction
      setup.scan.range = .ok items) :
    Tracks setup consumer initial (state.setWorker place { worker with phase := .scanning items }) := by
  have hlive : worker.isEnded = false := by simp [Worker.isEnded, hnow]
  -- a worker that has not started has all items of its cluster before it
  have hunread : worker.unread setup = items := by
    simp [Worker.unread, hnow, ParallelSetup.itemsOf, hscan, Except.toOption]
  have hremaining : worker.remaining setup = setup.evaluator.qualifying items := by
    simp [Worker.remaining, hnow, ParallelSetup.itemsOf, hscan, Except.toOption]
  have hfailure : Store.scanFailure? items = setup.failureOf? worker.cluster := by
    simp [ParallelSetup.failureOf?, hscan]
  have hhonest := h.honest worker (List.mem_of_getElem? hworker)
  have hevaluates := hhonest.evaluates
  rw [hunread] at hevaluates
  exact h.goOn hsound hnodup hworker hlive rfl rfl rfl rfl (List.append_nil _).symm rfl
    ⟨hhonest.deadline, hhonest.timedOut, hhonest.token, hevaluates, hfailure⟩ hremaining
    (by rw [hunread]; rfl) (by rw [hunread]; rfl) (by simp [Worker.isEnded])

/-- Coming to the end of a cluster keeps `Tracks`: the cluster has not failed, as a failure would be
among the items. -/
theorem Tracks.endScan {state : ParallelState σ} {worker : Worker} {place : Nat}
    (h : Tracks setup consumer initial state) (hsound : setup.evaluator.store.Sound)
    (hnodup : setup.scan.clusters.Nodup) (hworker : state.workers[place]? = some worker)
    (hnow : worker.phase = .scanning []) :
    Tracks setup consumer initial (state.setWorker place { worker with phase := .ended none }) := by
  have hlive : worker.isEnded = false := by simp [Worker.isEnded, hnow]
  have hremaining : worker.remaining setup = [] := by
    simp [Worker.remaining, hnow, Evaluator.qualifying, Store.scannedRecords]
  have hhonest := h.honest worker (List.mem_of_getElem? hworker)
  have hphase := hhonest.phase
  rw [hnow] at hphase
  exact h.goOn hsound hnodup hworker hlive rfl rfl rfl rfl (List.append_nil _).symm rfl
    (hhonest.endWith (.inl rfl)) hremaining (by simp [Worker.unread, hnow])
    (by simp [Worker.unread, hnow]) fun _ => ⟨rfl, hphase.symm⟩

/-- Finding that nobody has raised `stop` keeps `Tracks`. The item is read in a step of its own. -/
theorem Tracks.readFlag {state : ParallelState σ} {worker : Worker} {place : Nat}
    (h : Tracks setup consumer initial state) (hsound : setup.evaluator.store.Sound)
    (hnodup : setup.scan.clusters.Nodup) (hworker : state.workers[place]? = some worker)
    {item : ScanItem} {items : List ScanItem} (hnow : worker.phase = .scanning (item :: items)) :
    Tracks setup consumer initial
      (state.setWorker place { worker with phase := .reading item items }) := by
  have hlive : worker.isEnded = false := by simp [Worker.isEnded, hnow]
  have hunread : worker.unread setup = item :: items := by simp [Worker.unread, hnow]
  have hhonest := h.honest worker (List.mem_of_getElem? hworker)
  have hevaluates := hhonest.evaluates
  have hphase := hhonest.phase
  rw [hnow] at hphase
  rw [hunread] at hevaluates
  exact h.goOn hsound hnodup hworker hlive rfl rfl rfl rfl (List.append_nil _).symm rfl
    ⟨hhonest.deadline, hhonest.timedOut, hhonest.token, hevaluates, hphase⟩
    (by simp [Worker.remaining, hnow]) (by rw [hunread]; rfl) (by rw [hunread]; rfl)
    (by simp [Worker.isEnded])

/-- A step of a worker keeps the invariant. The cases are those of `stepWorker`, one lemma for
each. -/
theorem Tracks.stepWorker {state next : ParallelState σ} {place : Nat}
    (h : Tracks setup consumer initial state) (hsound : setup.evaluator.store.Sound)
    (hnodup : setup.scan.clusters.Nodup)
    (hstep : ParallelScan.stepWorker setup consumer state place = some next) :
    Tracks setup consumer initial next := by
  obtain ⟨worker, hworker, hturn⟩ := stepWorker_eq_some_iff.mp hstep
  have hlive := hturn.live
  -- one case per turn: a worker goes on, fails as its cluster does, or gives up
  cases hturn with
  | opens hnow hscan => exact h.openScan hsound hnodup hworker hnow hscan
  | fails hnow hscan =>
      exact h.fail hworker hlive (by simp [ParallelSetup.failureOf?, hscan])
  | ends hnow => exact h.endScan hsound hnodup hworker hnow
  | goesOn hnow => exact h.readFlag hsound hnodup hworker hnow
  | stops _ hstopped => exact h.giveUp hworker hlive (by simp [hstopped])
  | reads hnow => exact h.readItem hsound hnodup hworker hnow
  | givesUp _ hclosed =>
      refine h.giveUp hworker hlive fun hgoing => ?_
      rw [isOpen_of_isTaking hgoing.2] at hclosed
      cases hclosed
  | enqueues hholds => exact h.enqueue hsound hnodup hworker hholds
  | blocks hnow => exact h.block hsound hnodup hworker hnow

/-- A step of the consumer that uses no record loses nothing: `hbetween` says that the same ones are
on their way. -/
theorem Whole.of_consumer {state next : ParallelState σ} (h : Whole setup consumer initial state)
    (hgoing : Uninterrupted next) (hworkers : next.workers = state.workers)
    (hconsumer : next.consumer = state.consumer) (hbetween : next.between = state.between) :
    Whole setup consumer initial next where
  going := hgoing
  received := by
    rw [hworkers, hconsumer, hbetween]
    exact h.received

/-- While the consumer of a scan that has not failed uses records, `isTaking`, nobody has called for
a stop. -/
theorem Whole.running {state : ParallelState σ} (h : Whole setup consumer initial state)
    (htaking : state.phase.isTaking = true) : state.running = true := by
  rcases h.going with ⟨hrunning, -⟩ | ⟨hphase | hphase, -⟩
  · exact hrunning
  · simp [hphase, ConsumerPhase.isTaking] at htaking
  · simp [hphase, ConsumerPhase.isTaking] at htaking

/-- A step of a consumer that never stops (`hwilling`) keeps `Tracks`. It takes records off the
queue, and closes when all workers have ended. -/
theorem Tracks.stepConsumer {state next : ParallelState σ}
    (h : Tracks setup consumer initial state) (hwilling : consumer.Willing initial)
    (hstep : ParallelScan.stepConsumer consumer state = some next) :
    Tracks setup consumer initial next := by
  obtain ⟨used, hused⟩ := h.used
  have hturn := stepConsumer_eq_some_iff.mp hstep
  cases hturn with
  | ends hnow hqueue hended =>
      -- the scan stops with an empty queue and no worker left: nothing is lost
      refine ⟨h.clusters, h.honest, .inr (.inl rfl), h.used, ?_⟩
      rcases h.progress with hfailed | hwhole
      · exact .inl ⟨hfailed.worker, rfl⟩
      · exact .inr (hwhole.of_consumer (.inr ⟨.inl rfl, hqueue, hended⟩) rfl rfl (by
          simp [ParallelState.between, stop, hnow, ConsumerPhase.inHand]))
  | takes hnow hqueue =>
      refine ⟨h.clusters, h.honest, .inl rfl, h.used, ?_⟩
      rcases h.progress with hfailed | hwhole
      · exact .inl ⟨hfailed.worker, hfailed.running⟩
      · have hrunning := hwhole.running (by rw [hnow]; rfl)
        exact .inr (hwhole.of_consumer (.inl ⟨hrunning, rfl⟩) rfl rfl (by
          simp [ParallelState.between, hnow, hqueue, ConsumerPhase.inHand]))
  | goesOn hnow hrunning =>
      refine ⟨h.clusters, h.honest, .inl rfl, h.used, ?_⟩
      rcases h.progress with hfailed | hwhole
      · exact .inl ⟨hfailed.worker, hfailed.running⟩
      · exact .inr (hwhole.of_consumer (.inl ⟨hrunning, rfl⟩) rfl rfl (by
          simp [ParallelState.between, hnow, ConsumerPhase.inHand]))
  | stops hnow hstopped =>
      refine ⟨h.clusters, h.honest, .inr (.inl rfl), h.used, ?_⟩
      rcases h.progress with hfailed | hwhole
      · exact .inl ⟨hfailed.worker, rfl⟩
      · -- a scan that has not failed does not stop while the consumer holds a record
        rw [hwhole.running (by rw [hnow]; rfl)] at hstopped
        cases hstopped
  | @accepts item _ hnow hconsume =>
      rcases h.progress with hfailed | hwhole
      · rw [hused, hwilling.consume] at hconsume
        cases hconsume
        exact ⟨h.clusters, h.honest, .inl rfl, ⟨_, rfl⟩, .inl ⟨hfailed.worker, hfailed.running⟩⟩
      · obtain ⟨received, hafter, hforeign, heach⟩ := hwhole.received
        rw [hafter, hwilling.consume] at hconsume
        cases hconsume
        -- the record goes from the consumer's hand to what is received
        have hmove : received ++ state.between = received ++ [item] ++ state.queue := by
          simp [ParallelState.between, hnow, ConsumerPhase.inHand]
        rw [hmove] at hforeign heach
        exact ⟨h.clusters, h.honest, .inl rfl, ⟨_, rfl⟩, .inr
          ⟨.inl ⟨hwhole.running (by rw [hnow]; rfl), rfl⟩, received ++ [item], rfl, hforeign, heach⟩⟩
  | refuses hnow hconsume | fails hnow hconsume =>
      rw [hused, hwilling.consume] at hconsume
      cases hconsume
  | @closes failure hnow =>
      -- the consumer has not failed, so it called for a stop at the end, or after a worker had failed
      have hnone : failure = none := by
        rcases h.phase with htaking | hphase | hphase
        · simp [hnow, ConsumerPhase.isTaking] at htaking
        · cases hnow.symm.trans hphase
          rfl
        · cases hnow.symm.trans hphase
      refine ⟨h.clusters, h.honest, .inr (.inr (by rw [hnone]; rfl)), h.used, ?_⟩
      rcases h.progress with hfailed | hwhole
      · exact .inl ⟨hfailed.worker, hfailed.running⟩
      · rcases hwhole.going with ⟨-, htaking⟩ | ⟨-, hqueue, hended⟩
        · simp [hnow, ConsumerPhase.isTaking] at htaking
        · exact .inr (hwhole.of_consumer (.inr ⟨.inr (by rw [hnone]; rfl), rfl, hended⟩) rfl rfl (by
            simp [ParallelState.between, close, hnow, hqueue, ConsumerPhase.inHand]))

/-- A scan without a deadline and a token starts with everything still to be done, so `Tracks` holds
of `ParallelScan.start`. -/
theorem Tracks.start {context : Context} (hdeadline : context.deadline = none)
    (htoken : context.token = none)
    (hevaluates : ∀ id ∈ setup.scan.clusters, setup.evaluator.Evaluates (setup.itemsOf id)) :
    Tracks setup consumer initial (ParallelScan.start setup context initial) where
  clusters := by simp [ParallelScan.start, Function.comp_def]
  honest worker hworker := by
    obtain ⟨id, hid, rfl⟩ := List.mem_map.mp hworker
    exact ⟨hdeadline, rfl, htoken, hevaluates id hid, trivial⟩
  phase := .inl rfl
  used := ⟨[], rfl⟩
  progress := by
    refine .inr ⟨.inl ⟨rfl, rfl⟩, [], rfl, by simp [ParallelScan.start, ParallelState.between,
      ConsumerPhase.inHand], fun worker hworker => ?_⟩
    obtain ⟨id, hid, rfl⟩ := List.mem_map.mp hworker
    exact ⟨rfl, Nat.zero_add _, Nat.zero_add _, fun hended => by simp [Worker.isEnded] at hended⟩

/-- The invariant holds in every state that some interleaving reaches, `ParallelScan.Reachable`. The
induction is on the path. -/
theorem Tracks.of_reachable {context : Context} (hdeadline : context.deadline = none)
    (htoken : context.token = none)
    (hevaluates : ∀ id ∈ setup.scan.clusters, setup.evaluator.Evaluates (setup.itemsOf id))
    (hsound : setup.evaluator.store.Sound) (hnodup : setup.scan.clusters.Nodup)
    (hwilling : consumer.Willing initial) {state : ParallelState σ}
    (hreachable : Reachable setup consumer context initial state) :
    Tracks setup consumer initial state := by
  induction hreachable with
  | start => exact .start hdeadline htoken hevaluates
  | next _ hstep ih =>
      obtain ⟨actor, hstep⟩ := hstep
      cases actor with
      | worker place => exact ih.stepWorker hsound hnodup hstep
      | consumer => exact ih.stepConsumer hwilling hstep

/-! ## Scans that are over

Here the invariant is read at the end, when every worker has ended and nothing is in the queue. What
has come is then, cluster by cluster, what the scan of the cluster gives, and `perm_flatMap_filter`
puts the clusters together. -/

/-- Nobody fails where no cluster does, so all is `Whole`. -/
theorem Tracks.whole {state : ParallelState σ} (h : Tracks setup consumer initial state)
    (hnone : ∀ id ∈ setup.scan.clusters, setup.failureOf? id = none) :
    Whole setup consumer initial state := by
  refine h.progress.resolve_left fun hfailed => ?_
  obtain ⟨worker, hworker, failure, hphase⟩ := hfailed.worker
  have hhonest := (h.honest worker hworker).phase
  have hid : worker.cluster ∈ setup.scan.clusters :=
    h.clusters ▸ List.mem_map_of_mem hworker
  rw [hphase, hnone _ hid] at hhonest
  simp at hhonest

/-- The failure of a scan that is over, `failure?`, is that of a worker, as the consumer of a scan
that `Tracks` does not fail. -/
theorem Tracks.failure?_eq {state : ParallelState σ} (h : Tracks setup consumer initial state)
    {result : Option Failure}
    (hworkers : state.workers.findSome? Worker.failure? = result) : failure? state = result := by
  unfold failure?
  rw [hworkers]
  rcases h.phase with htaking | hphase | hphase
  · cases hphase : state.phase with
    | closed failure =>
        rw [hphase] at htaking
        cases htaking
    | receiving | taken item | handling item | closing failure => rfl
  · rw [hphase]
    rfl
  · rw [hphase]
    rfl

/-- With one cluster that fails (`hfailure`), a scan that is over has failed with its failure: a
worker that ended without one would have come to the end of that cluster. -/
theorem Tracks.failure_of_cluster {state : ParallelState σ}
    (h : Tracks setup consumer initial state) {id : ClusterId} (hid : id ∈ setup.scan.clusters)
    {failure : Failure} (hfailure : setup.failureOf? id = some failure)
    (hothers : ∀ other ∈ setup.scan.clusters, other ≠ id → setup.failureOf? other = none)
    (hended : state.workers.all Worker.isEnded = true) : failure? state = some failure := by
  -- only the worker of that cluster can have failed
  have honly : ∀ worker ∈ state.workers, ∀ other, worker.failure? = some other →
      other = failure := by
    intro worker hworker other hother
    have hcluster : worker.cluster ∈ setup.scan.clusters :=
      h.clusters ▸ List.mem_map_of_mem hworker
    have hhonest := (h.honest worker hworker).phase
    unfold Worker.failure? at hother
    split at hother
    next ended hphase =>
      rw [hphase, hother] at hhonest
      have hown : some other = setup.failureOf? worker.cluster := hhonest.resolve_left (by simp)
      by_cases hsame : worker.cluster = id
      · rw [hsame, hfailure] at hown
        exact Option.some.inj hown
      · rw [hothers _ hcluster hsame] at hown
        cases hown
    · cases hother
  -- and some worker has: otherwise that worker would have come to the end of its cluster
  have hfailed : Failed state := by
    refine h.progress.resolve_right fun hwhole => ?_
    obtain ⟨received, -, -, heach⟩ := hwhole.received
    obtain ⟨worker, hworker, rfl⟩ := List.mem_map.mp (h.clusters ▸ hid)
    have hnone := ((heach worker hworker).ended (List.all_eq_true.mp hended worker hworker)).2
    rw [hfailure] at hnone
    cases hnone
  obtain ⟨worker, hworker, other, hphase⟩ := hfailed.worker
  have hsome : (state.workers.findSome? Worker.failure?).isSome = true :=
    List.findSome?_isSome_iff.mpr ⟨worker, hworker, by simp [Worker.failure?, hphase]⟩
  obtain ⟨found, hfound⟩ := Option.isSome_iff_exists.mp hsome
  obtain ⟨finder, hfinder, hfinds⟩ := List.exists_of_findSome?_eq_some hfound
  rw [honly finder hfinder found hfinds] at hfound
  exact h.failure?_eq hfound

/-- Records of some keys are, in some order, those of each key. The keys are the clusters, each of
them once, `hnodup`. -/
theorem perm_flatMap_filter {α : Type} {key : α → Nat} {keys : List Nat} (hnodup : keys.Nodup)
    {items : List α} (hkeys : ∀ a ∈ items, key a ∈ keys) :
    items.Perm (keys.flatMap fun k => items.filter fun a => key a == k) := by
  induction keys generalizing items with
  | nil =>
      have hnone : items = [] := List.eq_nil_iff_forall_not_mem.mpr fun a ha => by
        simpa using hkeys a ha
      rw [hnone]
      exact .refl _
  | cons k keys ih =>
      obtain ⟨hnot, hnodup⟩ := List.nodup_cons.mp hnodup
      let others := items.filter fun a => !(key a == k)
      have hothers : others.Perm (keys.flatMap fun k => others.filter fun a => key a == k) := by
        refine ih hnodup fun a ha => ?_
        obtain ⟨ha, hne⟩ := List.mem_filter.mp ha
        exact (List.mem_cons.mp (hkeys a ha)).resolve_left (by simpa using hne)
      -- leaving out the first key takes nothing from the others
      have hsame : (keys.flatMap fun k => others.filter fun a => key a == k) =
          keys.flatMap fun k => items.filter fun a => key a == k := by
        refine List.flatMap_congr fun j hj => ?_
        rw [List.filter_filter]
        refine List.filter_congr fun a _ => ?_
        have hne : j ≠ k := fun heq => hnot (heq ▸ hj)
        by_cases heq : key a = j
        · simp [heq, hne]
        · simp [heq]
      rw [List.flatMap_cons, ← hsame]
      exact (List.filter_append_perm _ items).symm.trans (hothers.append_left _)

/-- What the workers have counted is added up when they are folded back into a run by
`Run.joinWorker`. -/
theorem stats_joinWorkers (workers : List Worker) (run : Run) :
    (workers.foldl Run.joinWorker run).context.stats.reads =
        run.context.stats.reads + (workers.map fun w => w.context.stats.reads).sum ∧
      (workers.foldl Run.joinWorker run).context.stats.analyzed =
        run.context.stats.analyzed + (workers.map fun w => w.context.stats.analyzed).sum := by
  induction workers generalizing run with
  | nil => exact ⟨rfl, rfl⟩
  | cons worker workers ih =>
      obtain ⟨hreads, hanalyzed⟩ := ih (run.joinWorker worker)
      rw [List.foldl_cons, hreads, hanalyzed]
      simp only [List.map_cons, List.sum_cons, Run.joinWorker, Context.join, Stats.merge]
      omega

/-- What gives nothing (`hnil`) may be left out. -/
theorem flatMap_filter_of_nil {α β : Type} {keeps : α → Bool} {f : α → List β}
    (hnil : ∀ a, keeps a = false → f a = []) {items : List α} :
    (items.filter keeps).flatMap f = items.flatMap f := by
  induction items with
  | nil => rfl
  | cons a items ih =>
      cases hkeeps : keeps a with
      | true => rw [List.filter_cons_of_pos hkeeps, List.flatMap_cons, List.flatMap_cons, ih]
      | false =>
          rw [List.filter_cons_of_neg (by simp [hkeeps]), ih, List.flatMap_cons, hnil a hkeeps,
            List.nil_append]

/-- The scan of a cluster that the range does not touch, `RidRange.touches`, gives no record. -/
theorem scannedRecords_of_untouched (hsound : setup.evaluator.store.Sound) {id : ClusterId}
    (huntouched : setup.scan.range.touches id = false) :
    Store.scannedRecords (setup.itemsOf id) = [] := by
  unfold ParallelSetup.itemsOf
  cases hscan : setup.evaluator.store.scanCluster id setup.scan.direction setup.scan.range with
  | error failure => rfl
  | ok items =>
      refine List.eq_nil_iff_forall_not_mem.mpr fun r hr => ?_
      obtain ⟨-, hid, hrange⟩ :=
        hsound.mem_of_scannedCluster hscan (Store.mem_scannedRecords.mp hr)
      have htouches := Store.touches_of_contains hrange
      rw [hid, huntouched] at htouches
      cases htouches

/-- The serial scan of clusters that do not fail, `scanClusters`, gives the records of each of them.
It leaves out clusters that the range does not touch, and these give nothing. -/
theorem exists_scanClusters (hsound : setup.evaluator.store.Sound)
    (hnodup : setup.scan.clusters.Nodup)
    (hnone : ∀ id ∈ setup.scan.clusters, setup.failureOf? id = none) :
    ∃ items, setup.evaluator.store.scanClusters setup.scan.clusters setup.scan.direction
        setup.scan.range = .ok items ∧ (∀ item ∈ items, ∃ r, item = .ok r) ∧
      (Store.scannedRecords items).Perm
        (setup.scan.clusters.flatMap fun id => Store.scannedRecords (setup.itemsOf id)) := by
  let order := Store.scanOrder setup.scan.clusters setup.scan.direction setup.scan.range
  obtain ⟨hmem, hpairwise⟩ :=
    Store.scanOrder_spec setup.scan.clusters setup.scan.direction setup.scan.range
  -- no cluster fails, so the scans of the visited clusters join
  have hscans : ∀ id ∈ order, setup.evaluator.store.scanCluster id setup.scan.direction
      setup.scan.range = .ok (setup.itemsOf id) ∧
      ∀ item ∈ setup.itemsOf id, ∃ r, item = .ok r := by
    intro id hid
    have hfine := hnone id ((hmem id).mp hid).1
    unfold ParallelSetup.failureOf? at hfine
    unfold ParallelSetup.itemsOf
    split at hfine
    next items hscan =>
      rw [hscan]
      exact ⟨rfl, Store.scanFailure?_eq_none_iff.mp hfine⟩
    next => cases hfine
  have hparts : order.mapM (fun id => setup.evaluator.store.scanCluster id setup.scan.direction
      setup.scan.range) = .ok (order.map setup.itemsOf) := mapM_eq_map fun id hid => (hscans id hid).1
  refine ⟨(order.map setup.itemsOf).flatten, ?_, ?_, ?_⟩
  · unfold Store.scanClusters
    rw [hparts]
    rfl
  · intro item hitem
    obtain ⟨items, hitems, hitem⟩ := List.mem_flatten.mp hitem
    obtain ⟨id, hid, rfl⟩ := List.mem_map.mp hitems
    exact (hscans id hid).2 item hitem
  · -- the clusters visited are those that the range touches, and the others hold no record of it
    have hvisited : order.Perm (setup.scan.clusters.filter setup.scan.range.touches) := by
      refine (List.perm_ext_iff_of_nodup ?_ (hnodup.filter _)).mpr fun id => ?_
      · refine hpairwise.imp fun {a b} hlt => ?_
        cases hdirection : setup.scan.direction <;> rw [hdirection] at hlt
        · exact Nat.ne_of_lt hlt
        · exact (Nat.ne_of_lt hlt).symm
      · rw [hmem, List.mem_filter]
    have hrecords : Store.scannedRecords (order.map setup.itemsOf).flatten =
        order.flatMap fun id => Store.scannedRecords (setup.itemsOf id) := by
      unfold Store.scannedRecords
      rw [← List.flatMap_def, List.filterMap_flatMap]
    rw [hrecords]
    exact (hvisited.flatMap_right _).trans (.of_eq (flatMap_filter_of_nil fun id huntouched =>
      scannedRecords_of_untouched hsound huntouched))

/-- Workers that have each counted the records of their cluster (`hreads`, `hanalyzed`) have counted
together what `evaluateAll` counts for the records of all clusters, which are those of `items`. -/
theorem counted_joinWorkers {workers : List Worker} {items : List ScanItem}
    (hclusters : workers.map (·.cluster) = setup.scan.clusters)
    (hreads : ∀ worker ∈ workers, worker.context.stats.reads =
      (Store.scannedRecords (setup.itemsOf worker.cluster)).length)
    (hanalyzed : ∀ worker ∈ workers, worker.context.stats.analyzed =
      setup.evaluator.countClass (setup.itemsOf worker.cluster))
    (hrecords : (Store.scannedRecords items).Perm
      (setup.scan.clusters.flatMap fun id => Store.scannedRecords (setup.itemsOf id)))
    (run : Run) : (workers.foldl Run.joinWorker run).counted =
      (setup.evaluator.evaluateAll (Store.scannedRecords items) run.context.stats).counted := by
  have hallReads : (workers.map fun w => w.context.stats.reads) =
      setup.scan.clusters.map fun id => (Store.scannedRecords (setup.itemsOf id)).length := by
    rw [← hclusters, List.map_map]
    exact List.map_congr_left hreads
  have hallAnalyzed : (workers.map fun w => w.context.stats.analyzed) =
      setup.scan.clusters.map fun id => setup.evaluator.countClass (setup.itemsOf id) := by
    rw [← hclusters, List.map_map]
    exact List.map_congr_left hanalyzed
  obtain ⟨hjoinedReads, hjoinedAnalyzed⟩ := stats_joinWorkers workers run
  obtain ⟨hserialReads, hserialAnalyzed⟩ :=
    setup.evaluator.stats_evaluateAll items run.context.stats
  unfold Run.counted Stats.counted
  rw [hjoinedReads, hjoinedAnalyzed, hserialReads, hserialAnalyzed, hallReads, hallAnalyzed]
  unfold Evaluator.countClass
  rw [hrecords.length_eq, hrecords.countP_eq, List.length_flatMap, List.countP_flatMap]
  rfl

/-- A scan that is over, and none of whose clusters fails, has handed over all that the serial scan
of the clusters gives, and has counted what it counts: that of `evaluateAll`, and that of any serial
run over the same clusters which nothing ends early. -/
theorem Tracks.complete {state : ParallelState σ} (h : Tracks setup consumer initial state)
    (hsound : setup.evaluator.store.Sound) (hnodup : setup.scan.clusters.Nodup)
    (hevaluates : ∀ id ∈ setup.scan.clusters, setup.evaluator.Evaluates (setup.itemsOf id))
    (hnone : ∀ id ∈ setup.scan.clusters, setup.failureOf? id = none)
    (hcomplete : state.isComplete = true) :
    ∃ items received,
      setup.evaluator.store.scanClusters setup.scan.clusters setup.scan.direction
        setup.scan.range = .ok items ∧
      state.consumer = consumer.after received initial ∧
      received.Perm (setup.evaluator.qualifying items) ∧
      (∀ id ∈ setup.scan.clusters, received.filter (fun item => item.record.rid.cluster == id) =
        setup.evaluator.qualifying (setup.itemsOf id)) ∧
      failure? state = none ∧
      (∀ run : Run,
        (state.workers.foldl Run.joinWorker run).context.stats.reads =
          (setup.evaluator.evaluateAll (Store.scannedRecords items) run.context.stats).reads ∧
        (state.workers.foldl Run.joinWorker run).context.stats.analyzed =
          (setup.evaluator.evaluateAll (Store.scannedRecords items) run.context.stats).analyzed) ∧
      ∀ (env : Env) (query : SelectQuery) (plan : Plan) (run : Run), run.Idle env →
        query.limitCount? = none →
        Evaluator.ofPlan env.store run.context.vars query plan = setup.evaluator →
        (state.workers.foldl Run.joinWorker run).counted =
          ((runSerial env query plan (.scan setup.scan)).run.run run).2.counted := by
  have hwhole := h.whole hnone
  -- the consumer has closed at the end of all records, so none is on its way
  obtain ⟨hphase, hqueue, hended⟩ := hwhole.going.of_isComplete hcomplete
  obtain ⟨received, hafter, hforeign, heach⟩ := hwhole.received
  have hbetween : state.between = [] := by
    simp [ParallelState.between, hphase, hqueue, ConsumerPhase.inHand]
  rw [hbetween, List.append_nil] at hforeign heach
  -- and the workers have ended, so nothing is left to hand over or to read
  have hworker (worker : Worker) (hmem : worker ∈ state.workers) :
      worker.remaining setup = [] ∧ worker.unread setup = [] :=
    ⟨Worker.remaining_of_isEnded (hended worker hmem),
      Worker.unread_of_isEnded (hended worker hmem)⟩
  obtain ⟨items, hscan, hread, hrecords⟩ := exists_scanClusters hsound hnodup hnone
  -- so the consumer has got, of each cluster, all that qualifies
  have hclusters : ∀ id ∈ setup.scan.clusters,
      received.filter (fun item => item.record.rid.cluster == id) =
        setup.evaluator.qualifying (setup.itemsOf id) := by
    intro id hid
    rw [← h.clusters] at hid
    obtain ⟨worker, hmem, rfl⟩ := List.mem_map.mp hid
    have hhanded := (heach worker hmem).handed
    rwa [(hworker worker hmem).1, List.append_nil] at hhanded
  -- each worker has counted the records of its cluster
  have hcounts (run : Run) : (state.workers.foldl Run.joinWorker run).counted =
      (setup.evaluator.evaluateAll (Store.scannedRecords items) run.context.stats).counted := by
    refine counted_joinWorkers h.clusters (fun worker hmem => ?_) (fun worker hmem => ?_) hrecords run
    · have hcount := (heach worker hmem).reads
      rwa [(hworker worker hmem).2] at hcount
    · have hcount := (heach worker hmem).analyzed
      rwa [(hworker worker hmem).2] at hcount
  refine ⟨items, received, hscan, hafter, ?_, hclusters, ?_, fun run => Prod.mk.inj (hcounts run),
    fun env query plan run hidle hlimit hevaluator => ?_⟩
  · have hperm := perm_flatMap_filter hnodup hforeign
    rw [List.flatMap_congr hclusters] at hperm
    refine hperm.trans ?_
    unfold Evaluator.qualifying
    rw [← List.filterMap_flatMap]
    exact (hrecords.filterMap _).symm
  · refine h.failure?_eq (List.findSome?_eq_none_iff.mpr fun worker hmem => ?_)
    have hphase := ((heach worker hmem).ended (hended worker hmem)).1
    simp [Worker.failure?, hphase]
  · -- and the serial run counts them one after the other
    have hstore : env.store = setup.evaluator.store := congrArg Evaluator.store hevaluator
    have hevaluable : setup.evaluator.Evaluates items := by
      intro r hr
      obtain ⟨id, hid, hr⟩ := List.mem_flatMap.mp (hrecords.mem_iff.mp hr)
      exact hevaluates id hid r hr
    have hserial := @runSerial_counts env query plan setup.scan run hidle hlimit items
      (by rw [hstore]; exact hscan) hread (by rw [hevaluator]; exact hevaluable)
    rw [hserial, hevaluator]
    exact hcounts run

/-- Whatever the order in which workers and consumer take their steps, a scan that is over has lost
and duplicated nothing if no cluster fails, and has failed as the cluster does if one cluster fails.
It has counted the records that `runSerial` counts over the same clusters. And a scan that is not
over goes on, whatever its consumer does. The queue has some place, `hcapacity`, as without one
nobody could put a record into it. -/
theorem interleavings {admits : Fields → Prop}
    (hreach : setup.evaluator.store.Reachable admits) (hnodup : setup.scan.clusters.Nodup)
    (hcapacity : 0 < setup.capacity)
    (hevaluates : ∀ id ∈ setup.scan.clusters, setup.evaluator.Evaluates (setup.itemsOf id))
    {context : Context} (hdeadline : context.deadline = none) (htoken : context.token = none)
    (hwilling : consumer.Willing initial) :
    (∀ state, Reachable setup consumer context initial state → state.isComplete = true →
      (∀ id ∈ setup.scan.clusters, setup.failureOf? id = none) →
      ∃ items received,
        setup.evaluator.store.scanClusters setup.scan.clusters setup.scan.direction
          setup.scan.range = .ok items ∧
        state.consumer = consumer.after received initial ∧
        received.Perm (setup.evaluator.qualifying items) ∧
        (∀ id ∈ setup.scan.clusters, received.filter (fun item => item.record.rid.cluster == id) =
          setup.evaluator.qualifying (setup.itemsOf id)) ∧
        failure? state = none ∧
        (∀ run : Run,
          (state.workers.foldl Run.joinWorker run).context.stats.reads =
            (setup.evaluator.evaluateAll (Store.scannedRecords items) run.context.stats).reads ∧
          (state.workers.foldl Run.joinWorker run).context.stats.analyzed =
            (setup.evaluator.evaluateAll (Store.scannedRecords items)
              run.context.stats).analyzed) ∧
        ∀ (env : Env) (query : SelectQuery) (plan : Plan) (run : Run), run.Idle env →
          query.limitCount? = none →
          Evaluator.ofPlan env.store run.context.vars query plan = setup.evaluator →
          (state.workers.foldl Run.joinWorker run).counted =
            ((runSerial env query plan (.scan setup.scan)).run.run run).2.counted) ∧
    (∀ state, Reachable setup consumer context initial state → state.isComplete = true →
      ∀ id ∈ setup.scan.clusters, ∀ failure, setup.failureOf? id = some failure →
        (∀ other ∈ setup.scan.clusters, other ≠ id → setup.failureOf? other = none) →
        failure? state = some failure ∧ state.workers.all Worker.isEnded = true) ∧
    (∀ (τ : Type) (other : Consumer τ) (state : ParallelState τ), state.isComplete = false →
      ∃ next, Step setup other state next) := by
  refine ⟨fun state hreachable hcomplete hnone => ?_, fun state hreachable hcomplete id hid failure
    hfailure hothers => ?_, fun τ other state hincomplete => ?_⟩
  · exact (Tracks.of_reachable hdeadline htoken hevaluates hreach.sound hnodup hwilling
      hreachable).complete hreach.sound hnodup hevaluates hnone hcomplete
  · have hended : state.workers.all Worker.isEnded = true := by
      simp only [ParallelState.isComplete, Bool.and_eq_true] at hcomplete
      exact hcomplete.2
    exact ⟨(Tracks.of_reachable hdeadline htoken hevaluates hreach.sound hnodup hwilling
      hreachable).failure_of_cluster hid hfailure hothers hended, hended⟩
  · -- the step that a run would take here is one of the steps that can be taken
    obtain ⟨next, hnext⟩ := exists_nextStep hcapacity hincomplete
    exact ⟨next, step_of_nextStep hnext⟩

end ParallelScan

end

/-! ## Two clusters -/

/-- Four records in two clusters, a condition that three of them meet, and a queue with one place.
The scan of the cluster `failing` fails. -/
def twoClusters (failing : Option ClusterId) : ParallelSetup where
  evaluator := {
    store := .ofChanges [
      .createClass "A" none 2 false,
      .insert "A" [("x", .int 1)], .insert "A" [("x", .int 2)],
      .insert "A" [("x", .int 3)], .insert "A" [("x", .int 4)],
      .failCluster failing]
    vars := []
    lets := [("y", .field ⟨"x", []⟩)]
    filter := some (.compare ⟨.field ⟨"x", []⟩, .greater, .literal (.int 1)⟩)
    classFilter := none }
  scan := ⟨[1, 2], .ascending, .all⟩
  clock := fun _ => 0
  capacity := 1

/-- A consumer that keeps what it takes, and is `Willing`. -/
def recorder : Consumer (List WorkItem) where
  consume item taken := (.ok true, taken ++ [item])
  signals _ := []

/-- The `recorder` has kept what it has taken, behind what it had at first. -/
theorem recorder_after (taken initial : List WorkItem) :
    recorder.after taken initial = initial ++ taken := by
  unfold Consumer.after
  induction taken generalizing initial with
  | nil => simp
  | cons item taken ih => rw [List.foldl_cons, ih]; simp [recorder]

/-- The state at the end of a run over the two clusters, in the order of `drive`. -/
def twoClustersDone (failing : Option ClusterId) : ParallelState (List WorkItem) :=
  ParallelScan.drive (twoClusters failing) recorder
    (ParallelScan.stepBound (twoClusters failing))
    (ParallelScan.start (twoClusters failing) .empty [])

/-- The run `twoClustersDone` takes every record that meets the condition, those of a cluster in
scan order, and fails as the second cluster does. -/
theorem interleavings_twoClusters :
    (∃ received, (twoClustersDone none).consumer = received ∧
      received.map (fun item => (item.record.rid, item.lets)) =
        [(⟨1, 1⟩, [("y", .int 3)]), (⟨2, 0⟩, [("y", .int 2)]), (⟨2, 1⟩, [("y", .int 4)])] ∧
      received.filter (fun item => item.record.rid.cluster == 2) =
        (twoClusters none).evaluator.qualifying ((twoClusters none).itemsOf 2) ∧
      ParallelScan.failure? (twoClustersDone none) = none) ∧
    ParallelScan.failure? (twoClustersDone (some 2)) = some (.corruption .scanFailed) := by
  have hreach (failing : Option ClusterId) :
      (twoClusters failing).evaluator.store.Reachable fun _ => True := by
    refine Store.reachable_ofChanges fun change hchange => ?_
    cases change <;> trivial
  have hwilling : recorder.Willing [] := fun _ _ => rfl
  have hdone (failing : Option ClusterId) : ParallelScan.Reachable (twoClusters failing) recorder
      .empty [] (twoClustersDone failing) :=
    ParallelScan.drive_induction (fun _ _ => .next) _ .start
  -- the condition compares integers
  have hevaluates (failing : Option ClusterId)
      (hall : ∀ id ∈ [1, 2], ((Store.scannedRecords ((twoClusters failing).itemsOf id)).all
        fun r => ((twoClusters failing).evaluator.qualify r).isOk) = true) :
      ∀ id ∈ (twoClusters failing).scan.clusters, (twoClusters failing).evaluator.Evaluates
        ((twoClusters failing).itemsOf id) := by
    intro id hid r hr
    have hok := List.all_eq_true.mp (hall id hid) r hr
    cases hqualify : (twoClusters failing).evaluator.qualify r with
    | ok lets => exact ⟨lets, rfl⟩
    | error failure =>
        rw [hqualify] at hok
        cases hok
  obtain ⟨items, received, -, htaken, -, hcluster, hfine, -⟩ := (ParallelScan.interleavings
    (hreach none) (by decide) Nat.one_pos (hevaluates none (by decide)) rfl rfl hwilling).1
    (twoClustersDone none) (hdone none) rfl (by decide)
  rw [recorder_after, List.nil_append] at htaken
  refine ⟨⟨received, htaken, htaken ▸ rfl, hcluster 2 (by decide), hfine⟩, ?_⟩
  exact ((ParallelScan.interleavings (hreach (some 2)) (by decide) Nat.one_pos
    (hevaluates (some 2) (by decide)) rfl rfl hwilling).2.1 (twoClustersDone (some 2))
    (hdone (some 2)) rfl 2 (by decide) _ rfl (by decide)).1

end RecordQuery
