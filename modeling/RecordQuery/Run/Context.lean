import RecordQuery.Condition.Basic
import RecordQuery.Options

/-!
# `RecordQuery.Run.Context`: what a run carries along

A context holds the variables of a query, its deadline, its cancel token, the phase it has
reached and its counters. Time comes from a `Clock`, which says how long the deadline has been
running at each reading; cancel tokens are raised in a `Signals` board that all contexts see.
A worker of a parallel scan gets a fork of the context, with counters of its own, and the fork
is folded back afterwards.
-/

set_option autoImplicit false

namespace RecordQuery

/-- The phases of a query. -/
inductive Phase where
  /-- Nothing has run yet. -/
  | unstarted
  /-- The target is checked and the plan chosen. -/
  | targetResolved
  /-- Records come from indexes. -/
  | indexStream
  /-- Records come from clusters. -/
  | scan
  /-- Every record of the source has been checked. -/
  | filtered
  /-- The groups are complete. -/
  | grouped
  /-- The rows are in order. -/
  | sorted
  /-- SKIP and LIMIT are applied. -/
  | limited
  /-- The sink has every row. -/
  | delivered
deriving DecidableEq, Repr

/-- The written name of a phase. -/
def Phase.text : Phase → String
  | unstarted => "unstarted"
  | targetResolved => "target_resolved"
  | indexStream => "index_stream"
  | scan => "scan"
  | filtered => "filtered"
  | grouped => "grouped"
  | sorted => "sorted"
  | limited => "limited"
  | delivered => "delivered"

/-- The counters of a run. -/
structure Stats where
  /-- The indexes that were read, in ascending order, each once. -/
  involvedIndexes : List String
  /-- Whether the source gave the order asked for. -/
  fullySorted : Bool
  /-- Whether an index of the plan matches the order asked for. -/
  usedInOrderBy : Bool
  /-- Reads of composite indexes. -/
  compositeUsed : Nat
  /-- Pairs of bounds folded into BETWEEN. -/
  foldedPairs : Nat
  /-- Records read. -/
  reads : Nat
  /-- Records read that belong to the class of the target. -/
  analyzed : Nat
  /-- Workers of parallel scans. -/
  parallelTasks : Nat
  /-- Whether the queue of a parallel scan was full at some time. -/
  queueFull : Bool
deriving DecidableEq, Repr

namespace Stats

/-- Nothing counted. -/
def zero : Stats := ⟨[], false, false, 0, 0, 0, 0, 0, false⟩

/-- Puts a name into an ascending list, once. -/
def insertName (name : String) : List String → List String
  | [] => [name]
  | n :: ns =>
      match Ord.compare name n with
      | .lt => name :: n :: ns
      | .eq => n :: ns
      | .gt => n :: insertName name ns

/-- The counters with one index read, composite or not. -/
def involve (stats : Stats) (name : String) (composite : Bool) : Stats :=
  { stats with
    involvedIndexes := insertName name stats.involvedIndexes
    compositeUsed := stats.compositeUsed + if composite then 1 else 0 }

/-- The counters of two runs together. -/
def merge (a b : Stats) : Stats :=
  { involvedIndexes := b.involvedIndexes.foldl (fun names n => insertName n names) a.involvedIndexes
    fullySorted := a.fullySorted || b.fullySorted
    usedInOrderBy := a.usedInOrderBy || b.usedInOrderBy
    compositeUsed := a.compositeUsed + b.compositeUsed
    foldedPairs := a.foldedPairs + b.foldedPairs
    reads := a.reads + b.reads
    analyzed := a.analyzed + b.analyzed
    parallelTasks := a.parallelTasks + b.parallelTasks
    queueFull := a.queueFull || b.queueFull }

end Stats

/-- How long a deadline has been running, in nanoseconds, at each reading of the clock. -/
abbrev Clock := Nat → Nat

/-- The identity of a cancel token. -/
abbrev CancelToken := Nat

/-- The cancel tokens that are raised. -/
abbrev Signals := List CancelToken

namespace Signals

/-- Whether a token is raised. -/
def isRaised (signals : Signals) (token : CancelToken) : Bool := signals.contains token

/-- Raises a token, or takes it down. -/
def set (signals : Signals) (token : CancelToken) (on : Bool) : Signals :=
  let others := signals.filter (· != token)
  if on then token :: others else others

end Signals

/-- The time that a query may take. -/
structure Deadline where
  /-- The limit in milliseconds. -/
  limitMs : Nat
  /-- What happens when it is exceeded. -/
  strategy : TimeoutStrategy
  /-- Whether the clock is running. -/
  started : Bool
deriving DecidableEq, Repr

/-- What a run carries along. -/
structure Context where
  /-- The variables. -/
  vars : Fields
  /-- The deadline. -/
  deadline : Option Deadline
  /-- Whether a transaction is active. -/
  inTransaction : Bool
  /-- The token that cancels the query. -/
  token : Option CancelToken
  /-- Whether the deadline has ended the query early. -/
  timedOut : Bool
  /-- The phase reached. -/
  phase : Phase
  /-- The counters. -/
  stats : Stats
  /-- The number of readings of the clock so far. -/
  readings : Nat
deriving Repr

namespace Context

/-- The context without variables, deadline and token. -/
def empty : Context := ⟨[], none, false, none, false, .unstarted, .zero, 0⟩

/-- Binds a variable, written with or without leading `$` signs. -/
def setVariable (context : Context) (name : String) (value : Value) : Context :=
  { context with vars := context.vars.insert (stripDollars name) value }

/-- The context with a deadline whose clock is not running yet. -/
def withTimeout (context : Context) (limitMs : Nat) (strategy : TimeoutStrategy) : Context :=
  { context with deadline := some ⟨limitMs, strategy, false⟩ }

/-- The context with a deadline, unless it has one. -/
def defaultTimeout (context : Context) (limitMs : Nat) (strategy : TimeoutStrategy) : Context :=
  match context.deadline with
  | some _ => context
  | none => context.withTimeout limitMs strategy

/-- Lets the clock of the deadline run. -/
def startClock (context : Context) : Context :=
  { context with deadline := context.deadline.map fun d => { d with started := true } }

/-- Whether the token of the context is raised. -/
def isCancelled (context : Context) (signals : Signals) : Bool :=
  context.token.any signals.isRaised

/-- Whether the run may go on: a raised token fails it; an expired deadline fails it or ends
it early, as its strategy says. -/
def check (context : Context) (clock : Clock) (signals : Signals) :
    Except Failure Bool × Context :=
  if context.isCancelled signals then (.error .cancelled, context)
  else if context.timedOut then (.ok false, context)
  else match context.deadline with
    | none => (.ok true, context)
    | some deadline =>
        if !deadline.started then (.ok true, context)
        else
          let elapsed := clock context.readings
          let read := { context with readings := context.readings + 1 }
          if elapsed ≤ deadline.limitMs * 1000000 then (.ok true, read)
          else match deadline.strategy with
            | .exception => (.error (.timeout (elapsed / 1000000) deadline.limitMs), read)
            | .return => (.ok false, { read with timedOut := true })

/-- The context of a worker: the same variables, deadline and token, and no counts. -/
def fork (context : Context) : Context :=
  { context with timedOut := false, stats := .zero }

/-- Folds the context of a worker back. -/
def join (context child : Context) : Context :=
  { context with
    stats := context.stats.merge child.stats
    timedOut := context.timedOut || child.timedOut }

end Context

end RecordQuery
