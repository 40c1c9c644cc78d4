import RecordQuery.Run.Parallel

/-!
# `RecordQuery.Proofs.ParallelSteps`: the turns of a parallel scan

A step of a parallel scan is a turn of a worker or of the consumer. The two never move at once, but
their turns may come in any order, and each turn reads or writes shared state once. The flag for a
stop is read in a turn of its own, before the item is read (`WorkerTurn.goesOn`, `WorkerTurn.reads`)
and before the record is used (`ConsumerTurn.goesOn`). So somebody else may call for a stop in
between.

`WorkerTurn` and `ConsumerTurn` list the turns, each with the condition under which it is taken and
the state that it leads to. `stepWorker_eq_some_iff` and `stepConsumer_eq_some_iff` say that the
step functions make these turns and no others. The left-to-right direction is an inversion: what
holds of every step is proved by one case for each turn. The other one is used for progress: who can
take a turn can take a step (`RecordQuery.Proofs.ParallelProgress`).
-/

set_option autoImplicit false

namespace RecordQuery

/-- The worker has a record for the queue, which it is about to offer, `offering`, or with which it
waits for room, `blocked`. -/
def Worker.Holds (worker : Worker) (item : WorkItem) (items : List ScanItem) : Prop :=
  worker.phase = .offering item items ∨ worker.phase = .blocked item items

namespace ParallelScan

section

variable {σ : Type} {setup : ParallelSetup} {consumer : Consumer σ} {state next : ParallelState σ}

/-- The turns of the worker at a place, and the states that they lead to. `signals` are the tokens
raised when the turn is taken. They are read together with the item. -/
inductive WorkerTurn (setup : ParallelSetup) (signals : Signals) (state : ParallelState σ)
    (place : Nat) (worker : Worker) : ParallelState σ → Prop
  /-- It opens its cluster. -/
  | opens {items : List ScanItem} (hnow : worker.phase = .starting)
      (hscan : setup.evaluator.store.scanCluster worker.cluster setup.scan.direction
        setup.scan.range = .ok items) :
      WorkerTurn setup signals state place worker
        (state.setWorker place { worker with phase := .scanning items })
  /-- Its cluster cannot be opened. -/
  | fails {failure : Failure} (hnow : worker.phase = .starting)
      (hscan : setup.evaluator.store.scanCluster worker.cluster setup.scan.direction
        setup.scan.range = .error failure) :
      WorkerTurn setup signals state place worker (state.failWorker place worker failure)
  /-- It comes to the end of its scan. -/
  | ends (hnow : worker.phase = .scanning []) :
      WorkerTurn setup signals state place worker
        (state.setWorker place { worker with phase := .ended none })
  /-- It finds that nobody has called for a stop. -/
  | goesOn {item : ScanItem} {items : List ScanItem}
      (hnow : worker.phase = .scanning (item :: items)) (hrunning : state.running = true) :
      WorkerTurn setup signals state place worker
        (state.setWorker place { worker with phase := .reading item items })
  /-- It finds that somebody has called for a stop. -/
  | stops {item : ScanItem} {items : List ScanItem}
      (hnow : worker.phase = .scanning (item :: items)) (hrunning : state.running = false) :
      WorkerTurn setup signals state place worker
        (state.setWorker place { worker with phase := .ended none })
  /-- It reads an item. -/
  | reads {item : ScanItem} {items : List ScanItem} (hnow : worker.phase = .reading item items) :
      WorkerTurn setup signals state place worker
        (readItem setup signals state place worker item items)
  /-- It gives up, as the consumer has closed. -/
  | givesUp {item : WorkItem} {items : List ScanItem} (hholds : worker.Holds item items)
      (hclosed : state.isOpen = false) :
      WorkerTurn setup signals state place worker
        (state.setWorker place { worker with phase := .ended none })
  /-- It puts its record into the queue. -/
  | enqueues {item : WorkItem} {items : List ScanItem} (hholds : worker.Holds item items)
      (hopen : state.isOpen = true) (hroom : state.queue.length < setup.capacity) :
      WorkerTurn setup signals state place worker (enqueue state place worker item items)
  /-- It finds the queue full. -/
  | blocks {item : WorkItem} {items : List ScanItem} (hnow : worker.phase = .offering item items)
      (hopen : state.isOpen = true) (hfull : ¬state.queue.length < setup.capacity) :
      WorkerTurn setup signals state place worker (block state place worker item items)

/-- A worker that takes a turn has not ended, as no turn starts from `ended`. A worker that waits
for room has no turn while the queue is full and the consumer is open. -/
theorem WorkerTurn.live {signals : Signals} {place : Nat} {worker : Worker}
    (h : WorkerTurn setup signals state place worker next) : worker.isEnded = false := by
  cases h with
  | opens hnow | fails hnow | ends hnow | goesOn hnow | stops hnow | reads hnow | blocks hnow =>
      simp [Worker.isEnded, hnow]
  | givesUp hholds | enqueues hholds =>
      rcases hholds with hnow | hnow <;> simp [Worker.isEnded, hnow]

/-- The steps of a worker are its turns, `WorkerTurn`. So a proof about steps goes by cases on the
turns. -/
theorem stepWorker_eq_some_iff {place : Nat} :
    stepWorker setup consumer state place = some next ↔
      ∃ worker, state.workers[place]? = some worker ∧
        WorkerTurn setup (consumer.signals state.consumer) state place worker next := by
  unfold stepWorker
  rw [Option.bind_eq_bind, Option.bind_eq_some_iff]
  refine exists_congr fun worker => and_congr_right fun _ => ⟨fun hstep => ?_, fun hturn => ?_⟩
  · cases hnow : worker.phase with
    | starting =>
        rw [hnow] at hstep
        dsimp only at hstep
        split at hstep
        next hscan =>
          cases hstep
          exact .opens hnow hscan
        next hscan =>
          cases hstep
          exact .fails hnow hscan
    | scanning items =>
        rw [hnow] at hstep
        cases items with
        | nil =>
            cases hstep
            exact .ends hnow
        | cons item items =>
            dsimp only at hstep
            cases hstep
            unfold readFlag
            split
            next hrunning => exact .goesOn hnow hrunning
            next hrunning => exact .stops hnow (by simpa using hrunning)
    | reading item items =>
        rw [hnow] at hstep
        cases hstep
        exact .reads hnow
    | offering item items | blocked item items =>
        have hholds : worker.Holds item items := by simp [Worker.Holds, hnow]
        rw [hnow] at hstep
        dsimp only at hstep
        -- the two phases differ only where the queue is full
        cases hopen : state.isOpen with
        | false =>
            rw [if_pos (by simp [hopen])] at hstep
            cases hstep
            exact .givesUp hholds hopen
        | true =>
            rw [if_neg (by simp [hopen])] at hstep
            split at hstep
            next hroom =>
              cases hstep
              exact .enqueues hholds hopen hroom
            next hfull => cases hstep <;> exact .blocks hnow hopen hfull
    | ended failure =>
        rw [hnow] at hstep
        cases hstep
  · cases hturn with
    | opens hnow hscan => rw [hnow]; dsimp only; rw [hscan]
    | fails hnow hscan => rw [hnow]; dsimp only; rw [hscan]
    | ends hnow => rw [hnow]
    | goesOn hnow hrunning => rw [hnow]; simp [readFlag, hrunning]
    | stops hnow hrunning => rw [hnow]; simp [readFlag, hrunning]
    | reads hnow => rw [hnow]
    | givesUp hholds hclosed =>
        rcases hholds with hnow | hnow <;> rw [hnow] <;> exact if_pos (by simp [hclosed])
    | enqueues hholds hopen hroom =>
        rcases hholds with hnow | hnow <;> rw [hnow] <;> simp [hopen, hroom]
    | blocks hnow hopen hfull => rw [hnow]; simp [hopen, hfull]

/-- The turns of the consumer, and the states that they lead to. It waits, without a turn, while
`queue` is empty and some worker has not ended. -/
inductive ConsumerTurn (consumer : Consumer σ) (state : ParallelState σ) : ParallelState σ → Prop
  /-- It finds that no record will come: the queue is empty, and every worker has ended. -/
  | ends (hnow : state.phase = .receiving) (hqueue : state.queue = [])
      (hended : state.workers.all Worker.isEnded = true) :
      ConsumerTurn consumer state (stop state none)
  /-- It takes a record off the queue. -/
  | takes {item : WorkItem} {queue : List WorkItem} (hnow : state.phase = .receiving)
      (hqueue : state.queue = item :: queue) :
      ConsumerTurn consumer state { state with queue, phase := .taken item }
  /-- It finds that nobody has called for a stop. -/
  | goesOn {item : WorkItem} (hnow : state.phase = .taken item) (hrunning : state.running = true) :
      ConsumerTurn consumer state { state with phase := .handling item }
  /-- It finds that somebody has called for a stop, and drops the record. -/
  | stops {item : WorkItem} (hnow : state.phase = .taken item) (hrunning : state.running = false) :
      ConsumerTurn consumer state (stop state none)
  /-- It uses a record, and wants another one. -/
  | accepts {item : WorkItem} {after : σ} (hnow : state.phase = .handling item)
      (hconsume : consumer.consume item state.consumer = (.ok true, after)) :
      ConsumerTurn consumer state { state with phase := .receiving, consumer := after }
  /-- It uses a record, and wants no other one. -/
  | refuses {item : WorkItem} {after : σ} (hnow : state.phase = .handling item)
      (hconsume : consumer.consume item state.consumer = (.ok false, after)) :
      ConsumerTurn consumer state (stop { state with consumer := after } none)
  /-- It fails at a record. -/
  | fails {item : WorkItem} {failure : Failure} {after : σ} (hnow : state.phase = .handling item)
      (hconsume : consumer.consume item state.consumer = (.error failure, after)) :
      ConsumerTurn consumer state (stop { state with consumer := after } (some failure))
  /-- It closes its end. -/
  | closes {failure : Option Failure} (hnow : state.phase = .closing failure) :
      ConsumerTurn consumer state (close state failure)

/-- The steps of the consumer are its turns, `ConsumerTurn`. -/
theorem stepConsumer_eq_some_iff :
    stepConsumer consumer state = some next ↔ ConsumerTurn consumer state next := by
  unfold stepConsumer
  constructor
  · intro hstep
    cases hnow : state.phase with
    | receiving =>
        rw [hnow] at hstep
        dsimp only at hstep
        split at hstep
        next hqueue =>
          split at hstep
          next hended =>
            cases hstep
            exact .ends hnow hqueue hended
          next => cases hstep
        next item queue hqueue =>
          cases hstep
          exact .takes hnow hqueue
    | taken item =>
        rw [hnow] at hstep
        dsimp only at hstep
        split at hstep
        next hrunning =>
          cases hstep
          exact .goesOn hnow hrunning
        next hrunning =>
          cases hstep
          exact .stops hnow (by simpa using hrunning)
    | handling item =>
        rw [hnow] at hstep
        cases hstep
        unfold useItem
        split
        next hconsume => exact .accepts hnow hconsume
        next hconsume => exact .refuses hnow hconsume
        next hconsume => exact .fails hnow hconsume
    | closing failure =>
        rw [hnow] at hstep
        cases hstep
        exact .closes hnow
    | closed failure =>
        rw [hnow] at hstep
        cases hstep
  · intro hturn
    cases hturn with
    | ends hnow hqueue hended => rw [hnow]; dsimp only; rw [hqueue]; exact if_pos hended
    | takes hnow hqueue => rw [hnow]; dsimp only; rw [hqueue]
    | goesOn hnow hrunning => rw [hnow]; exact if_pos hrunning
    | stops hnow hrunning => rw [hnow]; exact if_neg (by simp [hrunning])
    | accepts hnow hconsume =>
        rw [hnow]
        simp only [useItem, hconsume]
    | refuses hnow hconsume | fails hnow hconsume =>
        rw [hnow]
        simp only [useItem, hconsume]
        rfl
    | closes hnow => rw [hnow]

end

end ParallelScan

end RecordQuery
