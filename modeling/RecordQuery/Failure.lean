/-!
# `RecordQuery.Failure`: why an operation was refused

`QueryError` lists the reasons for which a query cannot run at all. `Failure` lists
everything that can stop an operation of the store, of an index, or of a running query.
Both are causes; `message` holds the wording and `code` the short name of the cause.
-/

set_option autoImplicit false

namespace RecordQuery

/-- Reasons for which a query is rejected. A predicate that no index can serve is not among
them: such a query reads the clusters instead. -/
inductive QueryError where
  /-- LIMIT is neither `-1` nor positive. -/
  | invalidLimit (limit : Int)
  /-- SKIP is negative. -/
  | invalidSkip (skip : Int)
  /-- The class is not declared. -/
  | unknownClass (name : String)
  /-- The cluster does not exist. -/
  | unknownCluster (cluster : Nat)
  /-- No index has this name. -/
  | unknownIndex (name : String)
  /-- The target variable is not bound in the context. -/
  | unknownVariable (name : String)
  /-- EXPAND stands beside projections. -/
  | expandWithProjections
  /-- An index target is filtered on something other than its key. -/
  | unsupportedIndexFilter (index clause : String)
  /-- An index target is ordered by something other than its key. -/
  | unsupportedIndexOrder (index field : String)
  /-- A chained index needs at least two hops. -/
  | chainTooShort (chain : String)
  /-- The operand of an operator has the wrong shape. -/
  | operandShape (operator expected : String)
deriving DecidableEq, Repr

namespace QueryError

/-- The short name of the cause. -/
def code : QueryError → String
  | invalidLimit _ => "InvalidLimit"
  | invalidSkip _ => "InvalidSkip"
  | unknownClass _ => "UnknownClass"
  | unknownCluster _ => "UnknownCluster"
  | unknownIndex _ => "UnknownIndex"
  | unknownVariable _ => "UnknownVariable"
  | expandWithProjections => "ExpandWithProjections"
  | unsupportedIndexFilter _ _ => "UnsupportedIndexFilter"
  | unsupportedIndexOrder _ _ => "UnsupportedIndexOrder"
  | chainTooShort _ => "ChainTooShort"
  | operandShape _ _ => "OperandShape"

/-- The sentence shown for the cause. -/
def message : QueryError → String
  | invalidLimit limit =>
      "LIMIT must be -1 or greater than 0 (got " ++ toString limit ++ ")"
  | invalidSkip skip => "SKIP must not be negative (got " ++ toString skip ++ ")"
  | unknownClass name => "unknown class '" ++ name ++ "'"
  | unknownCluster cluster => "unknown cluster " ++ toString cluster
  | unknownIndex name => "unknown index '" ++ name ++ "'"
  | unknownVariable name => "target variable '$" ++ name ++ "' is not defined"
  | expandWithProjections => "expand() cannot be combined with other projections"
  | unsupportedIndexFilter index clause =>
      "index '" ++ index ++ "' can only be filtered on 'key' (" ++ clause ++ ")"
  | unsupportedIndexOrder index field =>
      "index '" ++ index ++ "' can only be ordered by 'key' (got '" ++ field ++ "')"
  | chainTooShort chain =>
      "field chain '" ++ chain ++ "' needs at least two hops for a chained index"
  | operandShape operator expected => "operator " ++ operator ++ " expects " ++ expected

/-- The sentence with the short name in brackets before it. -/
def codedMessage (e : QueryError) : String :=
  "[" ++ e.code ++ "] " ++ e.message

end QueryError

/-- Arguments that an operation refuses. -/
inductive InvalidArgument where
  /-- A record identity lacks the colon between cluster and position. -/
  | ridShape
  /-- The cluster of a record identity is not a 32-bit number. -/
  | ridCluster
  /-- The position of a record identity is not a 64-bit number. -/
  | ridPosition
  /-- A class of this name is declared already. -/
  | classExists
  /-- An index of this name is declared already. -/
  | indexExists
  /-- A unique index holds the key for another record. -/
  | duplicateKey
  /-- The class has no cluster to put a record into. -/
  | abstractClass
  /-- A reason given by the caller. -/
  | described (text : String)
deriving DecidableEq, Repr

/-- The sentence shown for a refused argument. -/
def InvalidArgument.message : InvalidArgument → String
  | ridShape => "rid must look like #cluster:position"
  | ridCluster => "rid cluster must be an unsigned integer"
  | ridPosition => "rid position must be an unsigned integer"
  | classExists => "class already exists"
  | indexExists => "index already exists"
  | duplicateKey => "duplicate key in unique index"
  | abstractClass => "cannot insert into an abstract class"
  | described text => text

/-- Ways in which stored data can turn out broken. -/
inductive Corruption where
  /-- A cluster named by its class does not exist. -/
  | clusterMissing
  /-- A cluster could be read only in part. -/
  | scanFailed
  /-- A reason given by the caller. -/
  | described (text : String)
deriving DecidableEq, Repr

/-- The sentence shown for broken data. -/
def Corruption.message : Corruption → String
  | clusterMissing => "class cluster missing"
  | scanFailed => "cluster scan failed"
  | described text => text

/-- Everything that can stop an operation. -/
inductive Failure where
  /-- The storage medium failed. -/
  | io (text : String)
  /-- Stored data is broken. -/
  | corruption (cause : Corruption)
  /-- An argument was refused. -/
  | invalid (argument : InvalidArgument)
  /-- The entity asked for does not exist. -/
  | notFound
  /-- The query was rejected. -/
  | query (error : QueryError)
  /-- An index could not be read. -/
  | index (name message : String)
  /-- The deadline expired. -/
  | timeout (elapsedMs limitMs : Nat)
  /-- The cancel token was raised. -/
  | cancelled
  /-- A view over indexes does not offer the operation. -/
  | unsupportedForView (view operation : String)
  /-- A worker of a parallel scan broke down. -/
  | task (text : String)
deriving DecidableEq, Repr

namespace Failure

/-- The short name of the cause. -/
def code : Failure → String
  | io _ => "Io"
  | corruption _ => "Corruption"
  | invalid _ => "Invalid"
  | notFound => "NotFound"
  | query e => e.code
  | index _ _ => "IndexFailure"
  | timeout _ _ => "Timeout"
  | cancelled => "Cancelled"
  | unsupportedForView _ _ => "UnsupportedForView"
  | task _ => "TaskFailure"

/-- The sentence shown for the cause. -/
def message : Failure → String
  | io text => "IO: " ++ text
  | corruption cause => "corruption: " ++ cause.message
  | invalid argument => "invalid argument: " ++ argument.message
  | notFound => "not found"
  | query e => "invalid query: " ++ e.message
  | index name message => "index '" ++ name ++ "' failed: " ++ message
  | timeout elapsed limit =>
      "query timed out after " ++ toString elapsed ++ "ms (limit " ++ toString limit ++ "ms)"
  | cancelled => "query cancelled"
  | unsupportedForView view operation =>
      "operation '" ++ operation ++ "' is not supported by read-only index view '" ++ view ++ "'"
  | task text => "parallel task failed: " ++ text

end Failure

end RecordQuery
