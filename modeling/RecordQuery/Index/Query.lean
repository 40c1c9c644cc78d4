import RecordQuery.Value

/-!
# `RecordQuery.Index.Query`: what can be asked of an index

A key is a list of values, one per declared field. An `IndexQuery` names the entries wanted
by their leading key components. A bound on keys compares only as many components as it has,
and holds for no key with a null among them.
-/

set_option autoImplicit false

namespace RecordQuery

universe u

/-- One end of a range. -/
inductive Bound (α : Type u) where
  /-- No end. -/
  | unbounded
  /-- The end belongs to the range. -/
  | included (limit : α)
  /-- The end does not belong to the range. -/
  | excluded (limit : α)
deriving Repr

namespace Bound

/-- The bound at a value, inclusive or not. -/
def ofValue {α : Type u} (value : α) (inclusive : Bool) : Bound α :=
  if inclusive then included value else excluded value

/-- The value of a bound. -/
def value? {α : Type u} : Bound α → Option α
  | unbounded => none
  | included v | excluded v => some v

/-- The bound with its value changed. -/
def map {α β : Type u} (f : α → β) : Bound α → Bound β
  | unbounded => unbounded
  | included v => included (f v)
  | excluded v => excluded (f v)

/-- Whether the end itself is left out. -/
def isExcluded {α : Type u} : Bound α → Bool
  | excluded _ => true
  | _ => false

end Bound

/-- The key of an index entry. -/
abbrev Key := List Value

namespace Key

/-- The order of keys, component by component. -/
def compare (a b : Key) : Ordering := Value.compareItems a b

/-- Whether every component is null. -/
def isNull (key : Key) : Bool := key.all Value.isNull

/-- Whether the leading components of the key equal the given ones. -/
def startsWith : Key → Key → Bool
  | _, [] => true
  | [], _ :: _ => false
  | v :: vs, w :: ws => v == w && startsWith vs ws

/-- The order of the leading components that both keys have; none if one of them is null. -/
def compareLeading? (key bound : Key) : Option Ordering :=
  let count := min key.length bound.length
  let leading := key.take count
  let limits := bound.take count
  if leading.any Value.isNull || limits.any Value.isNull then none
  else some (compare leading limits)

/-- Whether the key satisfies a lower bound. -/
def isAbove (key : Key) : Bound Key → Bool
  | .unbounded => !key.isNull
  | .included bound => (key.compareLeading? bound).any (·.isGE)
  | .excluded bound => (key.compareLeading? bound).any (·.isGT)

/-- Whether the key satisfies an upper bound. -/
def isBelow (key : Key) : Bound Key → Bool
  | .unbounded => !key.isNull
  | .included bound => (key.compareLeading? bound).any (·.isLE)
  | .excluded bound => (key.compareLeading? bound).any (·.isLT)

/-- Whether the key satisfies both bounds. -/
def isWithin (key : Key) (lower upper : Bound Key) : Bool :=
  key.isAbove lower && key.isBelow upper

/-- The written form of a key. -/
def text (key : Key) : String :=
  "[" ++ ", ".intercalate (key.map Value.text) ++ "]"

end Key

/-- Whether a value other than null lies within the bounds. -/
def Value.isWithin (value : Value) (lower upper : Bound Value) : Bool :=
  let above := match lower with
    | .unbounded => true
    | .included bound => (value.compare bound).isGE
    | .excluded bound => (value.compare bound).isGT
  let below := match upper with
    | .unbounded => true
    | .included bound => (value.compare bound).isLE
    | .excluded bound => (value.compare bound).isLT
  !value.isNull && above && below

/-- A lookup in an index. -/
inductive IndexQuery where
  /-- The entries whose key starts with the given components. -/
  | exact (leading : Key)
  /-- The entries whose key starts with one of the given runs of components. -/
  | oneOf (choices : List Key)
  /-- The entries whose key starts with the given components and goes on with one within
  the bounds. -/
  | range (leading : Key) (lower upper : Bound Value)
  /-- The entries whose key lies within the bounds. -/
  | keyRange (lower upper : Bound Key)
deriving Repr

/-- The written form of a lookup. -/
def IndexQuery.text : IndexQuery → String
  | exact leading => "= " ++ leading.text
  | oneOf choices => "IN " ++ " ".intercalate (choices.map Key.text)
  | range leading lower upper =>
      let low := match lower with
        | .included v => " [" ++ v.text
        | .excluded v => " (" ++ v.text
        | .unbounded => " (-inf"
      let high := match upper with
        | .included v => ".." ++ v.text ++ "]"
        | .excluded v => ".." ++ v.text ++ ")"
        | .unbounded => "..+inf)"
      leading.text ++ low ++ high
  | keyRange lower upper =>
      let low := match lower with
        | .included key => ">= " ++ key.text
        | .excluded key => "> " ++ key.text
        | .unbounded => "> -inf"
      let high := match upper with
        | .included key => " <= " ++ key.text
        | .excluded key => " < " ++ key.text
        | .unbounded => " < +inf"
      low ++ high

/-- One entry of an index. -/
structure IndexEntry where
  /-- The key. -/
  key : Key
  /-- The record that has the key. -/
  rid : Rid
deriving Repr

end RecordQuery
