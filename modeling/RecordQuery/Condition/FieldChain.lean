/-!
# `RecordQuery.Condition.FieldChain`: paths of property names

A field chain such as `address.city.name` names a field of the record at hand, then fields
of the records that links lead to. It has at least one segment.
-/

set_option autoImplicit false

namespace RecordQuery

/-- A path of property names: the field of the record at hand, then one name per hop. -/
structure FieldChain where
  /-- The field of the record at hand. -/
  first : String
  /-- The fields of the records reached by the following hops. -/
  hops : List String
deriving DecidableEq, Repr, Inhabited

namespace FieldChain

/-- Every segment, first one first. -/
def segments (chain : FieldChain) : List String := chain.first :: chain.hops

/-- The chain of the given segments; no segment at all gives one empty segment. -/
def ofSegments : List String → FieldChain
  | [] => ⟨"", []⟩
  | first :: hops => ⟨first, hops⟩

/-- The pieces of a text between its dots. -/
def splitDots : List Char → List (List Char)
  | [] => [[]]
  | c :: cs =>
      if c == '.' then [] :: splitDots cs
      else match splitDots cs with
        | [] => [[c]]
        | piece :: pieces => (c :: piece) :: pieces

/-- The chain written as a dotted path. -/
def parse (path : String) : FieldChain :=
  ofSegments ((splitDots path.toList).map String.ofList)

/-- Whether the chain leads to another record. -/
def isLong (chain : FieldChain) : Bool := !chain.hops.isEmpty

/-- The number of segments. -/
def count (chain : FieldChain) : Nat := chain.hops.length + 1

/-- The field of the last record that the chain reaches. -/
def last (chain : FieldChain) : String := chain.hops.getLast?.getD chain.first

/-- Every segment but the last one. -/
def beforeLast (chain : FieldChain) : List String := chain.segments.dropLast

/-- Whether the chain is an attribute of the record itself, such as `@rid`. -/
def isAttribute (chain : FieldChain) : Bool :=
  !chain.isLong && chain.first.toList.head? == some '@'

/-- The dotted path. -/
def text (chain : FieldChain) : String := ".".intercalate chain.segments

end FieldChain

end RecordQuery
