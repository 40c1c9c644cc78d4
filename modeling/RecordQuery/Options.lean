/-!
# `RecordQuery.Options`: how queries are planned and run

Defaults hold for every setting that is not given.
-/

set_option autoImplicit false

namespace RecordQuery

/-- What happens when a query outlives its deadline. -/
inductive TimeoutStrategy where
  /-- The query fails. -/
  | exception
  /-- The query ends with the rows it has so far. -/
  | return
deriving DecidableEq, Repr

/-- The written name of a strategy. -/
def TimeoutStrategy.text : TimeoutStrategy → String
  | exception => "exception"
  | .return => "return"

/-- The strategy that has the written name. -/
def TimeoutStrategy.ofText? (name : String) : Option TimeoutStrategy :=
  [exception, .return].find? fun strategy => strategy.text == name

/-- A strategy is read back from its written name. -/
theorem TimeoutStrategy.ofText?_text (strategy : TimeoutStrategy) :
    ofText? strategy.text = some strategy := by
  cases strategy <;> decide

/-- The settings of an executor. -/
structure Options where
  /-- Rows that the sort buffer may hold beyond LIMIT and SKIP before it is cut back. -/
  sortSlack : Nat
  /-- A scan of more records than this may run in parallel. -/
  parallelMinRecords : Nat
  /-- The capacity of the queue of a parallel scan. -/
  queueCapacity : Nat
  /-- The deadline of queries that have none, in milliseconds. -/
  defaultTimeoutMs : Option Nat
  /-- The strategy of that deadline. -/
  timeoutStrategy : TimeoutStrategy
  /-- A query without LIMIT that delivers more rows than this gets a hint. -/
  limitHintThreshold : Nat
  /-- Whether opposite bounds on a field are folded into BETWEEN. -/
  foldRanges : Bool
deriving DecidableEq, Repr

/-- The settings where none is given. -/
def Options.default : Options :=
  ⟨10000, 300000, 20000, none, .exception, 10000, true⟩

end RecordQuery
