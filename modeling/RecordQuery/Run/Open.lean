import RecordQuery.Run.Stream

/-!
# `RecordQuery.Run.Open`: opening the source of a plan

Opening a source reads the indexes it needs and gives a stream. A candidate that cannot be
read is noted in a warning, and the next one of its alternative is tried. When an alternative
has none left, the whole source is unavailable, and the run falls back to a scan.
-/

set_option autoImplicit false

namespace RecordQuery

/-- What came of opening a source. -/
inductive Opened where
  /-- A stream, and whether it gives the order asked for. -/
  | stream (stream : Stream) (sorted : Bool)
  /-- An index could not be read. -/
  | unavailable (failure : Failure)

/-- Notes that an index was read. -/
def noteProbe (index : Index) : Exec Unit := do
  Exec.time .indexProbe
  Exec.count fun stats => stats.involve index.name index.definition.isComposite

/-- The entries of the first candidate that can be read, and whether they come in the order
asked for; otherwise the failure of the last one. -/
def openBranch (last : Failure) : Branch → Exec (Except Failure (List IndexEntry × Bool))
  | [] => return .error last
  | candidate :: others => do
      match candidate.index.lookup candidate.lookup candidate.ascending with
      | .ok entries =>
          noteProbe candidate.index
          return .ok (entries, candidate.sorted)
      | .error failure =>
          Exec.warn (.probeFailed candidate.index.name candidate.lookup.text failure)
          openBranch failure others

/-- The records found for all alternatives, one alternative after the other, and whether all
of them come in the order asked for. -/
def openBranches : List Branch → Exec (Except Failure (List Rid × Bool))
  | [] => return .ok ([], true)
  | branch :: branches => do
      match ← openBranch .notFound branch with
      | .error failure => return .error failure
      | .ok (entries, sorted) =>
          match ← openBranches branches with
          | .error failure => return .error failure
          | .ok (rids, others) => return .ok (entries.map (·.rid) ++ rids, sorted && others)

/-- The entries of a walk over a whole index: null keys first when walking upwards, last
otherwise, and not at all when they are left out. -/
def Index.orderedWalk (index : Index) (ascending includeNulls : Bool) :
    Except Failure (List IndexEntry) := do
  let values ← index.walk ascending
  if !includeNulls then return values
  let nulls ← index.nulls
  return if ascending then nulls ++ values else values ++ nulls

/-- The record that shows an entry of an index target. -/
def entryRecord (composite : Bool) (entry : IndexEntry) : Record :=
  let key : Value := if composite then .list entry.key else entry.key.head?.getD .null
  ⟨entry.rid, "", [(keyColumn, key), (ridColumn, .link entry.rid)]⟩

/-- The identities without those that occurred before. -/
def firstOccurrences (seen : List Rid) : List Rid → List Rid
  | [] => []
  | rid :: rids =>
      if seen.contains rid then firstOccurrences seen rids
      else rid :: firstOccurrences (rid :: seen) rids

/-- Opens a scan. -/
def openScan (env : Env) (scan : ScanPlan) : Exec Stream := do
  Exec.enter .scan
  match env.store.scanClusters scan.clusters scan.direction scan.range with
  | .ok items => return .scan items true
  | .error failure => throw failure

mutual

/-- Opens a source. `merges` says whether the parts of a fan-out are merged by their order. -/
def openSource (env : Env) (merges : Bool) : Source → Exec Opened
  | .records rids => do
      Exec.enter .scan
      return .stream (.plain ((firstOccurrences [] rids).filterMap env.store.load)) false
  | .scan plan => do
      let stream ← openScan env plan
      return .stream stream true
  | .union branches => do
      Exec.enter .indexStream
      match ← openBranches branches with
      | .error failure => return .unavailable failure
      | .ok (rids, sorted) =>
          return .stream (.lookup rids) (branches.length == 1 && sorted)
  | .sortedWalk index ascending => do
      Exec.enter .indexStream
      match index.orderedWalk ascending (!index.definition.ignoreNulls) with
      | .ok entries =>
          noteProbe index
          return .stream (.lookup (entries.map (·.rid))) true
      | .error failure =>
          Exec.warn (.probeFailed index.name "full stream" failure)
          return .unavailable failure
  | .fanOut parts => do
      match ← openParts env merges parts with
      | .error failure => return .unavailable failure
      | .ok (streams, sorted) =>
          let stream := if merges then .merge streams none true else .concat streams
          return .stream stream sorted
  | .indexTarget index lookup keys ascending => do
      Exec.enter .indexStream
      let opened := match lookup with
        | some query => index.lookup query ascending
        | none => index.orderedWalk ascending (!index.definition.ignoreNulls)
      match opened with
      | .error failure => throw failure
      | .ok entries =>
          noteProbe index
          let kept := entries.filter fun entry => keys.accepts entry.key
          return .stream (.plain (kept.map (entryRecord index.definition.isComposite))) true

/-- Opens the parts of a fan-out in order; the first unavailable one ends it. -/
def openParts (env : Env) (merges : Bool) :
    List Source → Exec (Except Failure (List Stream × Bool))
  | [] => return .ok ([], true)
  | part :: parts => do
      match ← openSource env merges part with
      | .unavailable failure => return .error failure
      | .stream stream sorted =>
          match ← openParts env merges parts with
          | .error failure => return .error failure
          | .ok (streams, others) => return .ok (stream :: streams, sorted && others)

end

end RecordQuery
