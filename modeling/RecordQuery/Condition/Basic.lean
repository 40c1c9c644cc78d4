import RecordQuery.Condition.FieldChain
import RecordQuery.Condition.Operator
import RecordQuery.Record

/-!
# `RecordQuery.Condition.Basic`: conditions on records

A condition is a tree of AND, OR and NOT over comparisons of operands: fields, constants and
variables. `Condition.evaluate` is its meaning for one record in a `Scope`, which supplies the
records that links lead to and the variables. AND and OR stop at the first side that decides.
-/

set_option autoImplicit false

namespace RecordQuery

/-- What a condition can look up beside the record at hand. -/
structure Scope where
  /-- The record behind a link; `none` where there is no live one. -/
  load : Rid → Option Record
  /-- The variables of the context. -/
  vars : Fields
  /-- The LET bindings of the record at hand; they hide variables of the same name. -/
  lets : Fields

/-- The variable's value; an unbound one reads as null. -/
def Scope.lookup (scope : Scope) (name : String) : Value :=
  ((scope.lets.get? name).orElse fun _ => scope.vars.get? name).getD .null

mutual

/-- The value of a field one hop further: through a link, inside a map, or for every item
of a list. -/
def Value.follow (load : Rid → Option Record) (name : String) : Value → Value
  | .link rid =>
      match load rid with
      | some record => record.get name
      | none => .null
  | .map entries => Fields.get entries name
  | .list items => .list (Value.followItems load name items)
  | _ => .null

/-- The value of a field one hop further, for every item. -/
def Value.followItems (load : Rid → Option Record) (name : String) : List Value → List Value
  | [] => []
  | v :: vs => Value.follow load name v :: Value.followItems load name vs

end

/-- The value that a field chain reaches from a record; a broken hop reads as null. -/
def FieldChain.resolve (chain : FieldChain) (load : Rid → Option Record) (record : Record) :
    Value :=
  chain.hops.foldl (fun value name => Value.follow load name value) (record.get chain.first)

/-- The name of a variable without the `$` signs before it. -/
def stripDollars (name : String) : String :=
  String.ofList (name.toList.dropWhile (· == '$'))

/-- One side of a comparison. -/
inductive Operand where
  /-- A field of the record at hand, or of a record it leads to. -/
  | field (chain : FieldChain)
  /-- A constant. -/
  | literal (value : Value)
  /-- A variable of the LET clause or of the context. -/
  | named (name : String)
deriving BEq, Repr

namespace Operand

/-- The variable written with or without leading `$` signs. -/
def ofVariable (name : String) : Operand := .named (stripDollars name)

/-- The chain of a field operand. -/
def chain? : Operand → Option FieldChain
  | field chain => some chain
  | _ => none

/-- The value of the operand for a record. -/
def resolve (operand : Operand) (scope : Scope) (record : Record) : Value :=
  match operand with
  | field chain => chain.resolve scope.load record
  | literal value => value
  | named name => scope.lookup name

/-- The value of an operand that does not depend on a record. -/
def constant? (operand : Operand) (vars : Fields) : Option Value :=
  match operand with
  | field _ => none
  | literal value => some value
  | named name => some (vars.get name)

/-- The written form of the operand. -/
def text : Operand → String
  | field chain => chain.text
  | literal value => value.text
  | named name => "$" ++ name

end Operand

/-- A comparison of two operands. -/
structure Comparison where
  /-- The left operand. -/
  left : Operand
  /-- The operator. -/
  operator : Operator
  /-- The right operand; operators on one value ignore it. -/
  right : Operand
deriving BEq, Repr

namespace Comparison

/-- The comparison with its only field on the left, where the operator allows it. -/
def fieldOnLeft? (c : Comparison) : Option Comparison :=
  match c.left, c.right with
  | .field _, .field _ => none
  | .field _, _ => some c
  | _, .field _ => c.operator.inverted?.map fun op => ⟨c.right, op, c.left⟩
  | _, _ => none

/-- The meaning of the comparison for a record. -/
def evaluate (c : Comparison) (scope : Scope) (record : Record) : Except QueryError Bool :=
  c.operator.apply (c.left.resolve scope record) (c.right.resolve scope record)

/-- What an index can do for the comparison: nothing unless exactly one side is a field, and
nothing for attributes. -/
def reuse (c : Comparison) : IndexReuse :=
  match c.left, c.right with
  | .field _, .field _ => .filterOnly
  | .field chain, _ => if chain.isAttribute then .filterOnly else c.operator.reuse
  | _, .field chain => if chain.isAttribute then .filterOnly else c.operator.reuse
  | _, _ => .filterOnly

/-- The written form of the comparison. -/
def text (c : Comparison) : String :=
  if c.operator.isUnary then c.left.text ++ " " ++ c.operator.keyword
  else c.left.text ++ " " ++ c.operator.keyword ++ " " ++ c.right.text

end Comparison

/-- A condition on records. -/
inductive Condition where
  /-- Both sides hold. -/
  | and (left right : Condition)
  /-- One of the sides holds. -/
  | or (left right : Condition)
  /-- The inner condition does not hold. -/
  | not (inner : Condition)
  /-- A comparison. -/
  | compare (comparison : Comparison)
deriving BEq, Repr

namespace Condition

/-- The meaning of the condition for a record. -/
def evaluate (condition : Condition) (scope : Scope) (record : Record) :
    Except QueryError Bool :=
  match condition with
  | and left right =>
      match left.evaluate scope record with
      | .error e => .error e
      | .ok false => .ok false
      | .ok true => right.evaluate scope record
  | or left right =>
      match left.evaluate scope record with
      | .error e => .error e
      | .ok true => .ok true
      | .ok false => right.evaluate scope record
  | not inner =>
      match inner.evaluate scope record with
      | .error e => .error e
      | .ok b => .ok !b
  | compare c => c.evaluate scope record

/-- What an index can do for the condition. -/
def reuse : Condition → IndexReuse
  | and _ _ => .intersection
  | or _ _ => .union
  | not _ => .filterOnly
  | compare c => c.reuse

/-- Every field chain of the condition, from left to right. -/
def chains : Condition → List FieldChain
  | and left right | or left right => left.chains ++ right.chains
  | not inner => inner.chains
  | compare c => c.left.chain?.toList ++ c.right.chain?.toList

/-- The members of a conjunction, from left to right; any other condition is its only one. -/
def conjuncts : Condition → List Condition
  | and left right => left.conjuncts ++ right.conjuncts
  | other => [other]

/-- The written form of the condition. -/
def text : Condition → String
  | and left right => "(" ++ left.text ++ " AND " ++ right.text ++ ")"
  | or left right => "(" ++ left.text ++ " OR " ++ right.text ++ ")"
  | not inner => "NOT " ++ inner.text
  | compare c => c.text

end Condition

end RecordQuery
