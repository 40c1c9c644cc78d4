import RecordQuery.Search.Basic
import RecordQuery.Select.Query
import RecordQuery.Store.Basic

/-!
# `RecordQuery.Plan.Basic`: plans of queries

A plan says where the records come from, which of them are checked again, and whether they
come in the order asked for. A plan holds the indexes that it reads, as they are at the time
of planning; nothing changes the store between planning and running.
-/

set_option autoImplicit false

namespace RecordQuery

/-- The class that records of an index have to belong to. -/
structure ClassFilter where
  /-- The class. -/
  className : String
  /-- Whether records of its subclasses qualify. -/
  polymorphic : Bool
deriving DecidableEq, Repr

/-- A scan of some clusters. -/
structure ScanPlan where
  /-- The clusters, ascending. -/
  clusters : List ClusterId
  /-- The direction. -/
  direction : ScanDirection
  /-- A hint on identities. -/
  range : RidRange
deriving DecidableEq, Repr

/-- One way to read the records of an alternative from an index. -/
structure Candidate where
  /-- The index. -/
  index : Index
  /-- What is looked up. -/
  lookup : IndexQuery
  /-- Whether keys are visited upwards. -/
  ascending : Bool
  /-- Whether the records come in the order asked for. -/
  sorted : Bool
  /-- The search that the lookup was made from. -/
  search : Search
deriving Repr

/-- The candidates for one alternative, best first. The first one that can be read is used. -/
abbrev Branch := List Candidate

/-- Constraints on the key of an index target. A list names the leading components of a
composite key, any other value the first one. -/
structure KeyFilter where
  /-- Components that the key starts with. -/
  exact : List Key
  /-- Choices, of each of which the key starts with one. -/
  anyOf : List (List Key)
  /-- Lower bounds. -/
  lower : List (Bound Key)
  /-- Upper bounds. -/
  upper : List (Bound Key)
deriving Repr

namespace KeyFilter

/-- No constraint. -/
def empty : KeyFilter := ⟨[], [], [], []⟩

/-- Whether the leading components of the key equal the given ones; null equals nothing. -/
def agrees (key leading : Key) : Bool := key.compareLeading? leading == some .eq

/-- Whether the key satisfies every constraint. -/
def accepts (filter : KeyFilter) (key : Key) : Bool :=
  filter.exact.all (agrees key) &&
    filter.anyOf.all (fun choices => choices.any (agrees key)) &&
    filter.lower.all (fun bound => key.isWithin bound .unbounded) &&
    filter.upper.all (fun bound => key.isWithin .unbounded bound)

end KeyFilter

/-- Where records come from. -/
inductive Source where
  /-- Records by identity. -/
  | records (rids : List Rid)
  /-- A scan of clusters. -/
  | scan (plan : ScanPlan)
  /-- A lookup for every alternative, each record once. -/
  | union (branches : List Branch)
  /-- A walk over a whole index, which gives the order asked for. -/
  | sortedWalk (index : Index) (ascending : Bool)
  /-- The sources of a class and of the classes below it, each record once. -/
  | fanOut (parts : List Source)
  /-- The entries of an index, as rows. -/
  | indexTarget (index : Index) (lookup : Option IndexQuery) (keys : KeyFilter)
      (ascending : Bool)
deriving Repr

/-- What a plan does to get its rows. -/
inductive PlanSource where
  /-- Records are read and shaped. -/
  | rows (source : Source)
  /-- One row with the number of records of some clusters. -/
  | count (clusters : List ClusterId) (name : String)
deriving Repr

/-- A plan. -/
structure Plan where
  /-- Where rows come from. -/
  source : PlanSource
  /-- The condition that every record is checked against. -/
  filter : Option Condition
  /-- The class that records have to belong to. -/
  classFilter : Option ClassFilter
  /-- The scan to use when an index cannot be read. -/
  fallback : Option ScanPlan
  /-- Whether the source gives the order asked for. -/
  orderSatisfied : Bool
  /-- Whether that order comes from an index. -/
  fullySorted : Bool
  /-- Whether some index of the plan matches the order asked for. -/
  usedInOrderBy : Bool
  /-- Whether the scan has a worker per cluster. -/
  parallel : Bool
  /-- The number of pairs of bounds folded into BETWEEN. -/
  foldedPairs : Nat
deriving Repr

end RecordQuery
