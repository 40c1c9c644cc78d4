import RecordQuery.Plan.IndexTarget
import RecordQuery.Run.Basic
import RecordQuery.Select.Query

/-!
# `RecordQuery.Run.Stream`: records one at a time

An opened source is a `Stream`. `Stream.pull` takes the next record off it. Lookups share a
list of the records already seen, so that a record found by several of them comes once; the
stream that asks for it first gets it. A merge compares the heads of its inputs and takes the
least, the earlier input among equals.
-/

set_option autoImplicit false

namespace RecordQuery

/-- The first record of an input that is still to be given, with its ORDER BY key. -/
structure Head where
  /-- The values for ORDER BY. -/
  key : List Value
  /-- The record. -/
  record : Record
deriving Repr

/-- An opened source of records. -/
inductive Stream where
  /-- Records as they are. -/
  | plain (records : List Record)
  /-- What a scan gives; `timed` until its end has been noted. -/
  | scan (items : List ScanItem) (timed : Bool)
  /-- Records found in indexes, each of them once among all lookups of the run. -/
  | lookup (rids : List Rid)
  /-- One input after the other. -/
  | concat (inputs : List Stream)
  /-- The inputs merged by their heads. The heads are read when the first record is asked
  for; `timed` until the end has been noted. -/
  | merge (inputs : List Stream) (heads : Option (List (Option Head))) (timed : Bool)

/-- What pulling changes beside the stream. -/
structure PullState where
  /-- The records that lookups have given. -/
  seen : List Rid
  /-- The times taken, the latest one first. -/
  timers : List Timer

/-- A pull, with a result or a failure. -/
abbrev Pull := ExceptT Failure (StateM PullState)

namespace Pull

/-- Notes that a time was taken, if it is still to be taken. -/
def time (timer : Timer) (timed : Bool) : Pull Unit :=
  modifyThe PullState fun s => if timed then { s with timers := timer :: s.timers } else s

end Pull

/-- The ORDER BY values of a record. -/
def orderKey (order : List OrderItem) (load : Rid → Option Record) (record : Record) :
    List Value :=
  order.map fun item => item.field.resolve load record

/-- The place of the least head, the earliest among equals. `best` is the least one so far
and its place. -/
def leastHead (order : List OrderItem) (place : Nat) (best : Option (Nat × Head)) :
    List (Option Head) → Option (Nat × Head)
  | [] => best
  | none :: heads => leastHead order (place + 1) best heads
  | some head :: heads =>
      let better := match best with
        | none => true
        | some (_, least) => (compareKeys order head.key least.key).isLT
      leastHead order (place + 1) (if better then some (place, head) else best) heads

/-- The first record of a list of identities that was not seen before and is live, and the
identities behind it. -/
def nextUnseen (load : Rid → Option Record) (seen : List Rid) :
    List Rid → Option Record × List Rid × List Rid
  | [] => (none, [], seen)
  | rid :: rids =>
      if seen.contains rid then nextUnseen load seen rids
      else match load rid with
        | some record => (some record, rids, rid :: seen)
        | none => nextUnseen load (rid :: seen) rids

/-- One pull of a stream, as a function that is yet to be chosen. -/
abbrev PullStep := Stream → Pull (Option Record × Stream)

namespace Stream

/-- The next record of the first input that has one, and the inputs that are left. -/
def pullFirst (step : PullStep) : List Stream → Pull (Option Record × List Stream)
  | [] => return (none, [])
  | input :: inputs => do
      let (record, rest) ← step input
      match record with
      | some record => return (some record, rest :: inputs)
      | none => pullFirst step inputs

/-- The next head of an input. -/
def nextHead (step : PullStep) (order : List OrderItem) (load : Rid → Option Record)
    (input : Stream) : Pull (Option Head × Stream) := do
  let (record, rest) ← step input
  return (record.map fun r => ⟨orderKey order load r, r⟩, rest)

/-- The first heads of all inputs, in their order. -/
def firstHeads (step : PullStep) (order : List OrderItem) (load : Rid → Option Record) :
    List Stream → Pull (List (Option Head) × List Stream)
  | [] => return ([], [])
  | input :: inputs => do
      let (head, rest) ← nextHead step order load input
      let (heads, others) ← firstHeads step order load inputs
      return (head :: heads, rest :: others)

/-- The next head of the input at a place. -/
def refill (step : PullStep) (order : List OrderItem) (load : Rid → Option Record) :
    Nat → List Stream → Pull (Option Head × List Stream)
  | _, [] => return (none, [])
  | 0, input :: inputs => do
      let (head, rest) ← nextHead step order load input
      return (head, rest :: inputs)
  | place + 1, input :: inputs => do
      let (head, rest) ← refill step order load place inputs
      return (head, input :: rest)

/-- Takes the least head of a merge and reads the next one of its input. -/
def pullLeast (step : PullStep) (order : List OrderItem) (load : Rid → Option Record)
    (inputs : List Stream) (heads : List (Option Head)) (timed : Bool) :
    Pull (Option Record × Stream) := do
  match leastHead order 0 none heads with
  | none =>
      Pull.time .merge timed
      return (none, .merge inputs (some heads) false)
  | some (place, head) =>
      let (next, rest) ← refill step order load place inputs
      return (some head.record, .merge rest (some (heads.set place next)) timed)

/-- One pull of a stream of at most the given depth. -/
def pullWithin (order : List OrderItem) (load : Rid → Option Record) : Nat → PullStep
  | 0, stream => return (none, stream)
  | depth + 1, stream =>
      let step := pullWithin order load depth
      match stream with
      | plain [] => return (none, plain [])
      | plain (record :: records) => return (some record, plain records)
      | scan [] timed => do
          Pull.time .scan timed
          return (none, scan [] false)
      | scan (.ok record :: items) timed => return (some record, scan items timed)
      | scan (.error failure :: _) _ => throw failure
      | lookup rids => do
          let state ← getThe PullState
          let (record, rest, seen) := nextUnseen load state.seen rids
          set { state with seen }
          return (record, lookup rest)
      | concat inputs => do
          let (record, rest) ← pullFirst step inputs
          return (record, concat rest)
      | merge inputs (some heads) timed => pullLeast step order load inputs heads timed
      | merge inputs none timed => do
          let (heads, rest) ← firstHeads step order load inputs
          pullLeast step order load rest heads timed

mutual

/-- How deeply streams are nested in a stream. -/
def depth : Stream → Nat
  | plain _ | scan _ _ | lookup _ => 1
  | concat inputs => depthOfAll inputs + 1
  | merge inputs _ _ => depthOfAll inputs + 1

/-- The depth of the deepest of some streams. -/
def depthOfAll : List Stream → Nat
  | [] => 0
  | input :: inputs => max (depth input) (depthOfAll inputs)

end

/-- Takes the next record off a stream; `none` at its end. -/
def pull (order : List OrderItem) (load : Rid → Option Record) (stream : Stream) :
    Pull (Option Record × Stream) :=
  pullWithin order load stream.depth stream

mutual

/-- No more records than this are left in a stream. -/
def size : Stream → Nat
  | plain records => records.length
  | scan items _ => items.length
  | lookup rids => rids.length
  | concat inputs => sizeOfAll inputs
  | merge inputs none _ => sizeOfAll inputs
  | merge inputs (some heads) _ => sizeOfAll inputs + heads.length

/-- The sizes of some streams together. -/
def sizeOfAll : List Stream → Nat
  | [] => 0
  | input :: inputs => size input + sizeOfAll inputs

end

end Stream

end RecordQuery
